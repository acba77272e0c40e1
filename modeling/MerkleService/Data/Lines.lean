import Mathlib.Data.List.DropRight
import MerkleService.Data.List

/-!
# The lines of a text

A text is read line by line through a buffer: a line that does not fit in the buffer ends the
reading.  White space around a line is dropped.

* `Lines.trim` : a line without the white space around it, and `Lines.trim_pad`, what it is of a
  word between white space.
* `Lines.scan` : the lines that the reader hands out, and whether it came to the end.
-/

namespace Lines

/-! ### White space -/

/-- The white space of Unicode (`unicode.IsSpace`). -/
def isSpace (c : Char) : Bool :=
  (9 ≤ c.toNat && c.toNat ≤ 13) || c.toNat == 32 || c.toNat == 0x85 || c.toNat == 0xA0 ||
    c.toNat == 0x1680 || (0x2000 ≤ c.toNat && c.toNat ≤ 0x200A) || c.toNat == 0x2028 ||
    c.toNat == 0x2029 || c.toNat == 0x202F || c.toNat == 0x205F || c.toNat == 0x3000

/-- A text without the white space around it (`strings.TrimSpace`). -/
def trim (l : List Char) : List Char := (l.dropWhile isSpace).rdropWhile isSpace

variable {l w w' : List Char}

theorem dropWhile_append_of_all (hw : ∀ c ∈ w, isSpace c = true) :
    (w ++ l).dropWhile isSpace = l.dropWhile isSpace := by
  induction w with
  | nil => rfl
  | cons c w ih =>
    rw [List.cons_append, List.dropWhile_cons_of_pos (hw c List.mem_cons_self)]
    exact ih fun c hc => hw c (List.mem_cons_of_mem _ hc)

theorem trim_append_left (hw : ∀ c ∈ w, isSpace c = true) : trim (w ++ l) = trim l := by
  rw [trim, dropWhile_append_of_all hw, trim]

theorem trim_append_right (hw : ∀ c ∈ w, isSpace c = true) : trim (l ++ w) = trim l := by
  rw [trim, trim, List.dropWhile_append]
  split_ifs with hnil
  · rw [List.isEmpty_iff.1 hnil, List.dropWhile_eq_nil_iff.2 hw]
  · rw [List.rdropWhile, List.reverse_append, dropWhile_append_of_all (by simpa using hw),
      ← List.rdropWhile]

/-- **A word between white space.** -/
theorem trim_pad {t : List Char} (hw : ∀ c ∈ w, isSpace c = true)
    (hw' : ∀ c ∈ w', isSpace c = true) (ht : ∀ c ∈ t, isSpace c = false) :
    trim (w ++ (t ++ w')) = t := by
  have hlead : t.dropWhile isSpace = t := by
    rw [List.dropWhile_eq_self_iff]
    exact fun hlt => by simp [ht _ (List.getElem_mem hlt)]
  rw [trim_append_left hw, trim_append_right hw', trim, hlead, List.rdropWhile_eq_self_iff]
  exact fun hne => by simp [ht _ (List.getLast_mem hne)]

/-- A text that begins with something else than white space keeps its beginning. -/
theorem head?_trim_cons {c : Char} (hc : isSpace c = false) :
    (trim (c :: l)).head? = some c := by
  have hdrop : (c :: l).dropWhile isSpace = c :: l := List.dropWhile_cons_of_neg (by simp [hc])
  rw [trim, hdrop]
  obtain ⟨t, ht⟩ := List.rdropWhile_prefix isSpace (l := c :: l)
  cases hr : (c :: l).rdropWhile isSpace with
  | nil =>
    have hall := List.rdropWhile_eq_nil_iff.1 hr c List.mem_cons_self
    simp [hc] at hall
  | cons d r =>
    rw [hr, List.cons_append, List.cons.injEq] at ht
    rw [List.head?_cons, ht.1]

theorem exists_pad (l : List Char) : ∃ w w', (∀ c ∈ w, isSpace c = true) ∧
    (∀ c ∈ w', isSpace c = true) ∧ l = w ++ (trim l ++ w') := by
  refine ⟨l.takeWhile isSpace, (l.dropWhile isSpace).rtakeWhile isSpace, ?_, ?_, ?_⟩
  · exact fun c hc => List.mem_takeWhile_imp hc
  · exact fun c hc => List.mem_rtakeWhile_imp hc
  · rw [trim, List.rdropWhile_append_rtakeWhile, List.takeWhile_append_dropWhile]

theorem trim_eq_nil_iff : trim l = [] ↔ ∀ c ∈ l, isSpace c = true := by
  constructor
  · intro h
    obtain ⟨w, w', hw, hw', hl⟩ := exists_pad l
    rw [hl, h, List.nil_append]
    exact fun c hc => (List.mem_append.1 hc).elim (hw c) (hw' c)
  · intro h
    rw [trim, List.dropWhile_eq_nil_iff.2 h, List.rdropWhile_nil]

/-! ### The reader -/

/-- How many bytes a text has in UTF-8. -/
def bytes (l : List Char) : ℕ := (l.map Char.utf8Size).sum

/-- A line may end with a carriage return. -/
def dropCR (l : List Char) : List Char := if l.getLast? = some '\r' then l.dropLast else l

theorem trim_dropCR (l : List Char) : trim (dropCR l) = trim l := by
  unfold dropCR
  split_ifs with hlast
  · obtain ⟨init, rfl⟩ := List.getLast?_eq_some_iff.1 hlast
    rw [List.dropLast_concat, trim_append_right (List.forall_mem_singleton.2 rfl)]
  · rfl

/-- The lines of a text: what stands between the line feeds, where nothing after the last one is no
line. -/
def lines (t : List Char) : List (List Char) :=
  if (t.splitOn '\n').getLast? = some [] then (t.splitOn '\n').dropLast else t.splitOn '\n'

/-- The lines that are handed out through a buffer of `size` bytes, and whether there is one that
does not fit. -/
def scan (size : ℕ) : List (List Char) → List (List Char) × Bool
  | [] => ([], false)
  | l :: ls =>
    if size ≤ bytes l then ([], true) else (dropCR l :: (scan size ls).1, (scan size ls).2)

theorem scan_of_fits {size : ℕ} {ls : List (List Char)} (h : ∀ l ∈ ls, bytes l < size) :
    scan size ls = (ls.map dropCR, false) := by
  induction ls with
  | nil => rfl
  | cons l ls ih =>
    rw [scan, if_neg (by have := h l List.mem_cons_self; omega),
      ih fun l hl => h l (List.mem_cons_of_mem _ hl)]
    rfl

theorem fits_of_scan {size : ℕ} {ls : List (List Char)} (h : (scan size ls).2 = false) :
    ∀ l ∈ ls, bytes l < size := by
  induction ls with
  | nil => simp
  | cons l ls ih =>
    rw [scan] at h
    split_ifs at h with hsize
    rw [List.forall_mem_cons]
    exact ⟨by omega, ih h⟩

/-- A property of all pieces of the text, which nothing has, is one of all lines. -/
theorem forall_mem_lines_iff {p : List Char → Prop} (hnil : p []) {t : List Char} :
    (∀ l ∈ lines t, p l) ↔ ∀ l ∈ t.splitOn '\n', p l := by
  unfold lines
  split_ifs with hlast
  · obtain ⟨init, hinit⟩ := List.getLast?_eq_some_iff.1 hlast
    rw [hinit, List.dropLast_concat]
    simp [or_imp, forall_and, hnil]
  · rfl

theorem filterMap_lines {α : Type*} {f : List Char → Option α} (hnil : f [] = none)
    (t : List Char) : (lines t).filterMap f = (t.splitOn '\n').filterMap f := by
  unfold lines
  split_ifs with hlast
  · obtain ⟨init, hinit⟩ := List.getLast?_eq_some_iff.1 hlast
    rw [hinit, List.dropLast_concat, List.filterMap_append, List.filterMap_cons_none hnil,
      List.filterMap_nil, List.append_nil]
  · rfl

end Lines
