import Mathlib.Data.List.Basic
import Mathlib.Data.List.Pairwise
import Mathlib.Tactic

/-!
# List lemmas

Facts about lists that the models share: elements of a pairwise-related list, how a sum over a
list changes when one entry is replaced (the list of workers or deliveries of a concurrent
service, of which one takes a step), what a reader finds at a position of a byte string, which lists
commute, and what goes back along a fold.
-/

namespace List

variable {α : Type*}

/-- Two different elements of a pairwise-related list are related one way or the other. -/
theorem Pairwise.rel_or_rel {R : α → α → Prop} {l : List α} (h : l.Pairwise R) {x y : α}
    (hx : x ∈ l) (hy : y ∈ l) (hne : x ≠ y) : R x y ∨ R y x := by
  have : Std.Symm fun x y => R x y ∨ R y x := ⟨fun _ _ => Or.symm⟩
  exact (h.imp (S := fun x y => R x y ∨ R y x) Or.inl).forall hx hy hne

theorem getElem?_set_cases {l : List α} {i j : ℕ} {x y : α} (h : (l.set i y)[j]? = some x) :
    j = i ∧ x = y ∨ j ≠ i ∧ l[j]? = some x := by
  rw [getElem?_set] at h
  split_ifs at h with hij
  · exact Or.inl ⟨hij.symm, (Option.some.inj h).symm⟩
  · exact Or.inr ⟨Ne.symm hij, h⟩

theorem getElem?_concat_cases {l : List α} {j : ℕ} {x y : α} (h : (l ++ [y])[j]? = some x) :
    l[j]? = some x ∨ j = l.length ∧ x = y := by
  rw [getElem?_append] at h
  split_ifs at h with hj
  · exact Or.inl h
  · obtain ⟨hlt, rfl⟩ := getElem?_eq_some_iff.1 h
    rw [length_singleton] at hlt
    exact Or.inr ⟨by omega, by simp⟩

/-- **How a sum over a list changes when one entry is replaced.** -/
theorem sum_map_set (g : α → ℕ) {l : List α} {i : ℕ} {x : α} (h : l[i]? = some x) (y : α) :
    ((l.set i y).map g).sum + g x = (l.map g).sum + g y := by
  induction l generalizing i with
  | nil => simp at h
  | cons a l ih =>
    cases i with
    | zero =>
      simp only [getElem?_cons_zero, Option.some.injEq] at h
      subst h
      simp only [set_cons_zero, map_cons, sum_cons]
      omega
    | succ i =>
      have := ih (i := i) (by simpa using h)
      simp only [set_cons_succ, map_cons, sum_cons]
      omega

theorem le_sum_map (g : α → ℕ) {l : List α} {x : α} (h : x ∈ l) : g x ≤ (l.map g).sum :=
  List.single_le_sum (fun _ _ => Nat.zero_le _) _ (mem_map_of_mem h)

theorem add_le_sum_map (g : α → ℕ) {l : List α} {i j : ℕ} {x y : α} (hij : i ≠ j)
    (hx : l[i]? = some x) (hy : l[j]? = some y) : g x + g y ≤ (l.map g).sum := by
  induction l generalizing i j with
  | nil => simp at hx
  | cons a l ih =>
    simp only [map_cons, sum_cons]
    cases i with
    | zero =>
      obtain ⟨j, rfl⟩ := Nat.exists_eq_succ_of_ne_zero (Ne.symm hij)
      simp only [getElem?_cons_zero, Option.some.injEq, getElem?_cons_succ] at hx hy
      have := le_sum_map g (mem_of_getElem? hy)
      subst hx
      omega
    | succ i =>
      simp only [getElem?_cons_succ] at hx
      cases j with
      | zero =>
        simp only [getElem?_cons_zero, Option.some.injEq] at hy
        have := le_sum_map g (mem_of_getElem? hx)
        subst hy
        omega
      | succ j =>
        have := ih (fun h => hij (by rw [h])) hx (by simpa using hy)
        omega

section

variable {β : Type*} {f : α → Option β} {l : List α} {i : ℕ} {x y : α}

theorem filterMap_set_same (h : l[i]? = some x) (hxy : f y = f x) :
    (l.set i y).filterMap f = l.filterMap f := by
  obtain ⟨hi, rfl⟩ := getElem?_eq_some_iff.1 h
  conv_rhs => rw [← take_append_drop i l, drop_eq_getElem_cons hi]
  rw [set_eq_take_append_cons_drop, if_pos hi, filterMap_append, filterMap_append, filterMap_cons,
    filterMap_cons, hxy]

theorem filterMap_set_perm (h : l[i]? = some x) (hx : f x = none) {z : β} (hy : f y = some z) :
    ((l.set i y).filterMap f).Perm (z :: l.filterMap f) := by
  obtain ⟨hi, rfl⟩ := getElem?_eq_some_iff.1 h
  have hl : l.filterMap f = (l.take i).filterMap f ++ (l.drop (i + 1)).filterMap f := by
    conv_lhs => rw [← take_append_drop i l, drop_eq_getElem_cons hi]
    rw [filterMap_append, filterMap_cons, hx]
  rw [set_eq_take_append_cons_drop, if_pos hi, filterMap_append, filterMap_cons, hy, hl]
  exact perm_middle

end

theorem countP_range_any (p : α → Bool) (l : List α) :
    (range l.length).countP (fun i => (l[i]?).any p) = l.countP p := by
  induction l using List.reverseRecOn with
  | nil => rfl
  | append_singleton l a ih =>
    have hsame : (range l.length).countP (fun i => ((l ++ [a])[i]?).any p) =
        (range l.length).countP (fun i => (l[i]?).any p) :=
      countP_congr fun i hi => by rw [getElem?_append_left (mem_range.1 hi)]
    rw [length_append, length_singleton, range_succ, countP_append, hsame, ih, countP_append]
    simp

/-! ### Fields between separators -/

section

variable {c : α} {x₁ x₂ z₁ z₂ : List α}

theorem append_cons_inj_of_first (h₁ : c ∉ x₁) (h₂ : c ∉ x₂) :
    x₁ ++ c :: z₁ = x₂ ++ c :: z₂ ↔ x₁ = x₂ ∧ z₁ = z₂ := by
  constructor
  · intro h
    induction x₁ generalizing x₂ with
    | nil => cases x₂ with
      | nil => simpa using h
      | cons b x₂ =>
        simp only [nil_append, cons_append, cons.injEq] at h
        exact absurd (h.1 ▸ mem_cons_self) h₂
    | cons a x₁ ih => cases x₂ with
      | nil =>
        simp only [nil_append, cons_append, cons.injEq] at h
        exact absurd (h.1 ▸ mem_cons_self) h₁
      | cons b x₂ =>
        simp only [cons_append, cons.injEq] at h
        obtain ⟨rfl, h⟩ := h
        obtain ⟨rfl, rfl⟩ := ih (not_mem_of_not_mem_cons h₁) (not_mem_of_not_mem_cons h₂) h
        exact ⟨rfl, rfl⟩
  · rintro ⟨rfl, rfl⟩
    rfl

theorem append_cons_inj_of_last (h₁ : c ∉ z₁) (h₂ : c ∉ z₂) :
    x₁ ++ c :: z₁ = x₂ ++ c :: z₂ ↔ x₁ = x₂ ∧ z₁ = z₂ := by
  rw [← reverse_inj, reverse_append, reverse_append, reverse_cons, reverse_cons, append_assoc,
    append_assoc, singleton_append, singleton_append,
    append_cons_inj_of_first (by simpa using h₁) (by simpa using h₂), reverse_inj, reverse_inj,
    and_comm]

theorem intercalate_inj [BEq α] [LawfulBEq α] {l₁ l₂ : List (List α)} (h₁ : ∀ x ∈ l₁, c ∉ x)
    (h₂ : ∀ x ∈ l₂, c ∉ x) (hne₁ : l₁ ≠ []) (hne₂ : l₂ ≠ []) :
    [c].intercalate l₁ = [c].intercalate l₂ ↔ l₁ = l₂ := by
  refine ⟨fun h => ?_, fun h => by rw [h]⟩
  rw [← splitOn_intercalate c h₁ hne₁, h, splitOn_intercalate c h₂ hne₂]

theorem notMem_of_mem_splitOn [BEq α] [LawfulBEq α] {l field : List α}
    (h : field ∈ l.splitOn c) : c ∉ field := by
  induction l generalizing field with
  | nil =>
    rw [splitOn_nil, mem_singleton] at h
    rw [h]
    exact not_mem_nil
  | cons x l ih =>
    obtain ⟨first, rest, hsplit⟩ := exists_cons_of_ne_nil (splitOn_ne_nil c l)
    rw [splitOn_cons_eq_if_modifyHead] at h
    split_ifs at h with hx
    · rcases mem_cons.1 h with rfl | h
      · exact not_mem_nil
      · exact ih h
    · rw [hsplit, modifyHead_cons] at h
      rw [hsplit] at ih
      rcases mem_cons.1 h with rfl | h
      · rw [mem_cons, not_or]
        exact ⟨fun hc => hx (by rw [hc, beq_self_eq_true]), ih mem_cons_self⟩
      · exact ih (mem_cons_of_mem _ h)

end

/-- `bs` stands in `l` at position `pos`. -/
def OccursAt (l : List α) (pos : ℕ) (bs : List α) : Prop := bs <+: l.drop pos

section

variable {l bs cs : List α} {pos : ℕ}

theorem occursAt_append : l.OccursAt pos (bs ++ cs) ↔
    l.OccursAt pos bs ∧ l.OccursAt (pos + bs.length) cs := by
  unfold OccursAt
  constructor
  · rintro ⟨rest, h⟩
    refine ⟨⟨cs ++ rest, by rw [← h, append_assoc]⟩, ⟨rest, ?_⟩⟩
    rw [← drop_drop, ← h, append_assoc, drop_left]
  · rintro ⟨⟨rest, h⟩, ⟨rest', h'⟩⟩
    rw [← drop_drop, ← h, drop_left] at h'
    exact ⟨rest', by rw [append_assoc, h', h]⟩

theorem occursAt_cons {b : α} : l.OccursAt pos (b :: bs) ↔
    l.OccursAt pos [b] ∧ l.OccursAt (pos + 1) bs := by
  rw [← singleton_append, occursAt_append, length_singleton]

theorem OccursAt.length_le (h : l.OccursAt pos bs) (hne : bs ≠ []) :
    pos + bs.length ≤ l.length := by
  have hlen := IsPrefix.length_le h
  have hpos := length_pos_iff.2 hne
  rw [length_drop] at hlen
  omega

theorem OccursAt.getElem? (h : l.OccursAt pos bs) {i : ℕ} (hi : i < bs.length) :
    l[pos + i]? = bs[i]? := by
  obtain ⟨rest, h⟩ := h
  rw [← getElem?_drop, ← h, getElem?_append_left hi]

/-! ### Writing over a part of a list -/

/-- `l` with `bs` written over it at position `pos`. -/
def splice (l : List α) (pos : ℕ) (bs : List α) : List α :=
  l.take pos ++ bs ++ l.drop (pos + bs.length)

theorem length_splice (h : pos + bs.length ≤ l.length) : (l.splice pos bs).length = l.length := by
  simp only [splice, length_append, length_take, length_drop]
  omega

theorem getElem?_splice (h : pos + bs.length ≤ l.length) (i : ℕ) :
    (l.splice pos bs)[i]? =
      if pos ≤ i ∧ i < pos + bs.length then bs[i - pos]? else l[i]? := by
  have hpos : (l.take pos).length = pos := length_take_of_le (by omega)
  unfold splice
  split_ifs with hi
  · rw [getElem?_append_left (by simp only [length_append, hpos]; omega),
      getElem?_append_right (by omega), hpos]
  · rcases Nat.lt_or_ge i pos with hlt | hge
    · rw [append_assoc, getElem?_append_left (by omega), getElem?_take_of_lt hlt]
    · rw [getElem?_append_right (by simp only [length_append, hpos]; omega), getElem?_drop]
      congr 1
      simp only [length_append, hpos]
      omega

theorem occursAt_iff_getElem? : l.OccursAt pos bs ↔ ∀ i < bs.length, l[pos + i]? = bs[i]? := by
  refine ⟨fun h i hi => h.getElem? hi, fun h => prefix_iff_getElem?.2 fun i hi => ?_⟩
  rw [getElem?_drop, h i hi, getElem?_eq_getElem hi]

theorem occursAt_splice (h : pos + bs.length ≤ l.length) : (l.splice pos bs).OccursAt pos bs := by
  refine occursAt_iff_getElem?.2 fun i hi => ?_
  rw [getElem?_splice h, if_pos (by omega), Nat.add_sub_cancel_left]

theorem OccursAt.splice {pos' : ℕ} (hocc : l.OccursAt pos' cs) (h : pos + bs.length ≤ l.length)
    (hdisj : pos' + cs.length ≤ pos ∨ pos + bs.length ≤ pos') :
    (l.splice pos bs).OccursAt pos' cs := by
  refine occursAt_iff_getElem?.2 fun i hi => ?_
  rw [getElem?_splice h, if_neg (by omega), hocc.getElem? hi]

theorem OccursAt.take_drop (h : l.OccursAt pos bs) : (l.drop pos).take bs.length = bs :=
  (prefix_iff_eq_take.1 h).symm

theorem splice_splice (h : pos + bs.length + cs.length ≤ l.length) :
    (l.splice pos bs).splice (pos + bs.length) cs = l.splice pos (bs ++ cs) := by
  have hlen : (l.take pos ++ bs).length = pos + bs.length := by
    rw [length_append, length_take_of_le (by omega)]
  unfold splice
  rw [take_left' hlen, ← drop_drop, drop_left' hlen, drop_drop, length_append, append_assoc _ bs cs,
    Nat.add_assoc]

end

/-! ### Lists that commute -/

theorem exists_replicate_of_append_comm {x y : List α} (h : x ++ y = y ++ x) :
    ∃ (w : List α) (m n : ℕ), x = (replicate m w).flatten ∧ y = (replicate n w).flatten := by
  -- the longer list begins with the shorter one, which commutes with the rest as well
  induction hn : x.length + y.length using Nat.strong_induction_on generalizing x y with
  | _ len ih =>
    wlog hle : x.length ≤ y.length generalizing x y
    · obtain ⟨w, m, n, hy, hx⟩ := this h.symm (by omega) (by omega)
      exact ⟨w, n, m, hx, hy⟩
    · rcases eq_or_ne x [] with rfl | hx
      · exact ⟨y, 0, 1, by simp, by simp⟩
      · obtain ⟨z, rfl⟩ : x <+: y := prefix_of_prefix_length_le ⟨y, rfl⟩ ⟨x, h.symm⟩ hle
        rw [append_assoc, append_cancel_left_eq] at h
        have hpos := length_pos_iff.2 hx
        rw [length_append] at hn
        obtain ⟨w, m, n, hm, hz⟩ := ih (x.length + z.length) (by omega) h rfl
        refine ⟨w, m, m + n, hm, ?_⟩
        rw [replicate_add, flatten_append, ← hm, ← hz]

/-- **Two lists commute if and only if they are repetitions of one list.** -/
theorem append_comm_iff {x y : List α} : x ++ y = y ++ x ↔
    ∃ (w : List α) (m n : ℕ), x = (replicate m w).flatten ∧ y = (replicate n w).flatten := by
  refine ⟨exists_replicate_of_append_comm, ?_⟩
  rintro ⟨w, m, n, rfl, rfl⟩
  rw [← flatten_append, ← flatten_append, ← replicate_add, ← replicate_add, Nat.add_comm]

/-! ### Folds -/

/-- What holds at the end of a fold and goes back along its steps held at the beginning. -/
theorem of_foldl {S : Type*} {step : S → α → S} {I P : S → Prop} {ok : α → Prop}
    (hinv : ∀ s x, I s → I (step s x)) (hback : ∀ s x, I s → ok x → P (step s x) → P s)
    {l : List α} (hl : ∀ x ∈ l, ok x) {s : S} (hs : I s) (h : P (l.foldl step s)) : P s := by
  induction l generalizing s with
  | nil => exact h
  | cons x l ih =>
    rw [forall_mem_cons] at hl
    exact hback s x hs hl.1 (ih hl.2 (hinv s x hs) h)

/-- A fold over keys in a map that may lose entries: what is found for another key at the end was
found before, so that nothing has changed for it unless it has been lost. -/
theorem find_foldl_eq {S K V : Type*} {find : S → K → Option V} {step : S → K → S} {I : S → Prop}
    (hinv : ∀ s k, I s → I (step s k))
    (hback : ∀ s k k' v, I s → k' ≠ k → find (step s k') k = some v → find s k = some v)
    {keys : List K} {k : K} (hk : k ∉ keys) {s : S} (hs : I s)
    (hkept : (find s k).isSome = true → (find (keys.foldl step s) k).isSome = true) :
    find (keys.foldl step s) k = find s k := by
  cases hfind : find (keys.foldl step s) k with
  | some v =>
    have hne : ∀ k' ∈ keys, k' ≠ k := by
      rintro k' hk' rfl
      exact hk hk'
    have hstart : find s k = some v := of_foldl (P := fun s => find s k = some v) hinv
      (fun s k' hs hne' => hback s k k' v hs hne') hne hs hfind
    exact hstart.symm
  | none =>
    cases hfind' : find s k with
    | none => rfl
    | some v => simp [hfind, hfind'] at hkept

end List
