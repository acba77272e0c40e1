import Mathlib.Data.List.Basic
import Mathlib.Tactic
import MerkleService.Data.List

/-!
# Lexical paths

Clean absolute paths, and the path that a key names below a directory.  A key is an arbitrary text;
it is read as Go's `filepath.Join` reads it, component by component: the empty component and `.`
stand for nothing, `..` for the parent of what was read before, and the parent of the root is the
root.

* `AbsPath` : a clean absolute path, which is the list of its names.
* `AbsPath.join dir key` : `filepath.Join`.
* `relative key` : the key alone, cleaned: a number of leading `..`, and the names behind them.
* `names_join` : **joining is going up that many times, and down the names**.
* `strictlyContains_join_iff` : **when a key names something inside a directory**.
-/

namespace FilePath

/-- A name in a clean path. -/
def IsName (n : List Char) : Prop := n ≠ [] ∧ n ≠ ['.'] ∧ n ≠ ['.', '.'] ∧ '/' ∉ n

instance (n : List Char) : Decidable (IsName n) := inferInstanceAs (Decidable (_ ∧ _))

/-- A clean absolute path; the root has no names. -/
structure AbsPath where
  names : List (List Char)
  isName : ∀ n ∈ names, IsName n
  deriving DecidableEq

/-- The components of a text. -/
def components (key : String) : List (List Char) := key.toList.splitOn '/'

/-- A component is read below a path. -/
def push (out : List (List Char)) (c : List Char) : List (List Char) :=
  if c = [] ∨ c = ['.'] then out
  else if c = ['.', '.'] then out.dropLast
  else out ++ [c]

theorem isName_push {out : List (List Char)} {c : List Char} (hout : ∀ n ∈ out, IsName n)
    (hc : '/' ∉ c) : ∀ n ∈ push out c, IsName n := by
  unfold push
  split_ifs with hempty hup
  · exact hout
  · intro n hn
    exact hout n (List.mem_of_mem_dropLast hn)
  · rw [not_or] at hempty
    intro n hn
    rcases List.mem_append.1 hn with hn | hn
    · exact hout n hn
    · rw [List.mem_singleton.1 hn]
      exact ⟨hempty.1, hempty.2, hup, hc⟩

theorem isName_foldl_push {cs : List (List Char)} (hcs : ∀ c ∈ cs, '/' ∉ c)
    {out : List (List Char)} (hout : ∀ n ∈ out, IsName n) :
    ∀ n ∈ cs.foldl push out, IsName n := by
  induction cs generalizing out with
  | nil => exact hout
  | cons c cs ih =>
    rw [List.foldl_cons]
    exact ih (fun x hx => hcs x (List.mem_cons_of_mem _ hx))
      (isName_push hout (hcs c List.mem_cons_self))

theorem foldl_push_eq {cs : List (List Char)} (h : ∀ c ∈ cs, '.' ∉ c) (names : List (List Char)) :
    cs.foldl push names = names ++ cs.filter fun c => c ≠ [] := by
  induction cs generalizing names with
  | nil => simp
  | cons c cs ih =>
    rw [List.forall_mem_cons] at h
    have hdot : c ≠ ['.'] := fun heq => h.1 (by simp [heq])
    have hup : c ≠ ['.', '.'] := fun heq => h.1 (by simp [heq])
    rw [List.foldl_cons, ih h.2]
    by_cases hempty : c = []
    · simp [push, hempty]
    · simp [push, hempty, hdot, hup]

namespace AbsPath

/-- `filepath.Join` of a clean absolute path and a key. -/
def join (dir : AbsPath) (key : String) : AbsPath :=
  ⟨(components key).foldl push dir.names,
    isName_foldl_push (fun _ hc => List.notMem_of_mem_splitOn hc) dir.isName⟩

/-- The path of the first `i` names. -/
def take (p : AbsPath) (i : ℕ) : AbsPath :=
  ⟨p.names.take i, fun n hn => p.isName n (List.mem_of_mem_take hn)⟩

/-- `filepath.Dir`: the parent, and the root for the root. -/
def dir (p : AbsPath) : AbsPath := p.take (p.names.length - 1)

/-- The path is inside the directory, and not the directory itself. -/
def StrictlyContains (dir p : AbsPath) : Prop := ∃ rest, rest ≠ [] ∧ p.names = dir.names ++ rest

theorem ext_names {p q : AbsPath} (h : p.names = q.names) : p = q := by
  obtain ⟨pn, hp⟩ := p
  obtain ⟨qn, hq⟩ := q
  obtain rfl : pn = qn := h
  rfl

end AbsPath

/-! ### A key alone -/

/-- A cleaned relative path: leading `..`, and names. -/
structure Relative where
  ups : ℕ
  names : List (List Char)
  deriving DecidableEq

/-- A component of a relative path is read. -/
def Relative.push (r : Relative) (c : List Char) : Relative :=
  if c = [] ∨ c = ['.'] then r
  else if c = ['.', '.'] then
    if r.names = [] then { r with ups := r.ups + 1 } else { r with names := r.names.dropLast }
  else { r with names := r.names ++ [c] }

/-- The key, cleaned. -/
def relative (key : String) : Relative := (components key).foldl Relative.push ⟨0, []⟩

theorem push_append (base : List (List Char)) (r : Relative) (c : List Char) :
    push (base.take (base.length - r.ups) ++ r.names) c =
      base.take (base.length - (r.push c).ups) ++ (r.push c).names := by
  unfold push Relative.push
  split_ifs with hempty hup hnames
  · rfl
  · -- There is no name to take back: one step up from the directory.
    have hle : base.length - r.ups ≤ base.length := Nat.sub_le _ _
    simp only [hnames, List.append_nil]
    rw [List.dropLast_eq_take, List.length_take_of_le hle, List.take_take, Nat.sub_sub,
      Nat.min_eq_left (by omega)]
  · simp only [List.dropLast_append_of_ne_nil hnames]
  · simp only [List.append_assoc]

/-- **Joining is going up from the directory, and down the names.** -/
theorem names_join (dir : AbsPath) (key : String) :
    (dir.join key).names =
      dir.names.take (dir.names.length - (relative key).ups) ++ (relative key).names := by
  have hfold : ∀ (cs : List (List Char)) (r : Relative),
      cs.foldl push (dir.names.take (dir.names.length - r.ups) ++ r.names) =
        dir.names.take (dir.names.length - (cs.foldl Relative.push r).ups) ++
          (cs.foldl Relative.push r).names := by
    intro cs
    induction cs with
    | nil => intro r; rfl
    | cons c cs ih =>
      intro r
      rw [List.foldl_cons, List.foldl_cons, push_append, ih]
  have hkey := hfold (components key) ⟨0, []⟩
  rw [Nat.sub_zero, List.take_length, List.append_nil] at hkey
  exact hkey

/-- The key leads back into the directory it leaves: behind its leading `..` it names, one by one,
the directories that they went up from, and then something more. -/
def StaysInside (dir : AbsPath) (key : String) : Prop :=
  ∃ rest, rest ≠ [] ∧
    (relative key).names = dir.names.drop (dir.names.length - (relative key).ups) ++ rest

/-- **When a key names something inside a directory.** -/
theorem strictlyContains_join_iff (dir : AbsPath) (key : String) :
    dir.StrictlyContains (dir.join key) ↔ StaysInside dir key := by
  have hsplit := List.take_append_drop (dir.names.length - (relative key).ups) dir.names
  have hiff : ∀ rest, (dir.join key).names = dir.names ++ rest ↔
      (relative key).names = dir.names.drop (dir.names.length - (relative key).ups) ++ rest := by
    intro rest
    rw [names_join]
    conv_lhs => rhs; rw [← hsplit, List.append_assoc]
    rw [List.append_right_inj]
  simp only [AbsPath.StrictlyContains, StaysInside, hiff]

theorem staysInside_of_ups_eq_zero (dir : AbsPath) {key : String} (h : (relative key).ups = 0) :
    StaysInside dir key ↔ (relative key).names ≠ [] := by
  simp only [StaysInside, h, Nat.sub_zero, List.drop_length, List.nil_append]
  exact ⟨fun ⟨rest, hne, hrest⟩ => hrest ▸ hne, fun hne => ⟨_, hne, rfl⟩⟩

end FilePath
