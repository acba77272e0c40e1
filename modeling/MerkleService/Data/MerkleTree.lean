import Mathlib.Algebra.Order.Floor.Div
import Mathlib.Data.Nat.Bitwise
import Mathlib.Data.List.Basic
import Mathlib.Tactic

/-!
# Merkle trees stored level by level

A complete binary hash tree over the leaves `leaf 0, leaf 1, …`, given by a parent function, and
the flat array in which its inner nodes are stored level by level.  Where the number of leaves is
not a power of two the tree is padded with a value `zero` that marks absent nodes; the parent of a
node without a right sibling hashes the node with itself.

* `node parent leaf k i` : node `i` of level `k`; level `0` holds the leaves.
* `store parent h l` : all inner nodes of the tree of height `h` over the `2 ^ h` leaves `l`.
* `getElem?_store` : where a node is in the array; `getLast?_store` : the root is last.
* `realCount n k` : how many nodes of level `k` have one of the first `n` leaves below them, which
  is `n / 2 ^ k` rounded up.
* `node_eq_zero_iff` : these are the nodes that are not padding.
* `node_succ_eq` : **one step of a proof**: the parent of a real node is computed from the node and
  its sibling, or from the node alone where the sibling is padding.
-/

namespace MerkleTree

variable {α : Type*}

/-! ### Levels -/

/-- Node `i` of level `k`. -/
def node (parent : α → α → α) (leaf : ℕ → α) : ℕ → ℕ → α
  | 0, i => leaf i
  | k + 1, i => parent (node parent leaf k (2 * i)) (node parent leaf k (2 * i + 1))

/-- The parents of a list of nodes, pair by pair. -/
def pairUp (parent : α → α → α) : List α → List α
  | l :: r :: rest => parent l r :: pairUp parent rest
  | _ => []

/-- The inner nodes of the tree of height `h` over the leaves `l`, level by level. -/
def store (parent : α → α → α) : ℕ → List α → List α
  | 0, _ => []
  | h + 1, l => pairUp parent l ++ store parent h (pairUp parent l)

section

variable (parent : α → α → α) (leaf : ℕ → α)

theorem node_succ_leaves (k i : ℕ) :
    node parent leaf (k + 1) i = node parent (node parent leaf 1) k i := by
  induction k generalizing i with
  | zero => rfl
  | succ k ih => rw [node, ih, ih, node]

theorem pairUp_map_range (m : ℕ) :
    pairUp parent ((List.range (2 * m)).map leaf) = (List.range m).map (node parent leaf 1) := by
  induction m generalizing leaf with
  | zero => rfl
  | succ m ih =>
    have htail : pairUp parent ((List.range (2 * m)).map fun i => leaf (i + 2)) =
        (List.range m).map fun i => node parent leaf 1 (i + 1) := by
      rw [ih]
      rfl
    rw [show 2 * (m + 1) = 2 * m + 1 + 1 by ring, List.range_succ_eq_map, List.range_succ_eq_map,
      List.range_succ_eq_map]
    simp only [List.map_cons, List.map_map, pairUp]
    exact congrArg₂ _ rfl htail

theorem forall_mem_store {P : α → Prop} (hP : ∀ l r, P (parent l r)) (h : ℕ) (l : List α) :
    ∀ x ∈ store parent h l, P x := by
  have hpair : ∀ l : List α, ∀ x ∈ pairUp parent l, P x := by
    intro l
    induction l using pairUp.induct with
    | case1 a b l ih =>
      rw [pairUp, List.forall_mem_cons]
      exact ⟨hP a b, ih⟩
    | case2 l hl =>
      rw [pairUp.eq_2 _ _ hl]
      exact List.forall_mem_nil _
  induction h generalizing l with
  | zero => exact List.forall_mem_nil _
  | succ h ih =>
    rw [store, List.forall_mem_append]
    exact ⟨hpair l, ih _⟩

theorem length_store (h : ℕ) :
    (store parent h ((List.range (2 ^ h)).map leaf)).length = 2 ^ h - 1 := by
  induction h generalizing leaf with
  | zero => rfl
  | succ h ih =>
    have hpos := Nat.two_pow_pos h
    rw [store, pow_succ', pairUp_map_range, List.length_append, ih, List.length_map,
      List.length_range]
    omega

/-- **Where a node is stored**: level `k` starts behind the levels `1, …, k - 1`, which have
`2 ^ h - 2 ^ (h + 1 - k)` nodes. -/
theorem getElem?_store {h k i : ℕ} (hk : k < h) (hi : i < 2 ^ (h - (k + 1))) :
    (store parent h ((List.range (2 ^ h)).map leaf))[2 ^ h - 2 ^ (h - k) + i]? =
      some (node parent leaf (k + 1) i) := by
  induction h generalizing k leaf with
  | zero => omega
  | succ h ih =>
    rw [store, pow_succ', pairUp_map_range]
    cases k with
    | zero =>
      rw [Nat.sub_zero, pow_succ', Nat.sub_self, Nat.zero_add]
      have hi' : i < 2 ^ h := by simpa using hi
      rw [List.getElem?_append_left (by simpa using hi')]
      simp [hi']
    | succ k =>
      -- the first level has `2 ^ h` nodes; the rest is the store of the tree over it
      have hle : 2 ^ (h - k) ≤ 2 ^ h := Nat.pow_le_pow_right (by omega) (by omega)
      have hpos : 2 * 2 ^ h - 2 ^ (h + 1 - (k + 1)) + i = 2 ^ h + (2 ^ h - 2 ^ (h - k) + i) := by
        rw [show h + 1 - (k + 1) = h - k by omega]
        omega
      rw [hpos, List.getElem?_append_right (by simp)]
      simp only [List.length_map, List.length_range, Nat.add_sub_cancel_left]
      rw [ih (node parent leaf 1) (by omega) (by simpa using hi),
        node_succ_leaves parent leaf (k + 1)]

/-- The root is stored last. -/
theorem getLast?_store {h : ℕ} (hh : 0 < h) :
    (store parent h ((List.range (2 ^ h)).map leaf)).getLast? = some (node parent leaf h 0) := by
  obtain ⟨h, rfl⟩ := Nat.exists_eq_succ_of_ne_zero hh.ne'
  have hget := getElem?_store parent leaf (show h < h + 1 by omega) (i := 0) (by simp)
  have hpow : 2 ^ (h + 1) - 1 - 1 = 2 ^ (h + 1) - 2 ^ (h + 1 - h) + 0 := by
    rw [show h + 1 - h = 1 by omega]
    omega
  rw [List.getLast?_eq_getElem?, length_store, hpow]
  exact hget

end

/-! ### Padding -/

section

variable [DecidableEq α] (zero : α) (hash : α → α → α)

/-- The parent of two nodes of a padded tree. -/
def paddedParent (l r : α) : α :=
  if l = zero then zero else if r = zero then hash l l else hash l r

/-- How many nodes of level `k` have one of the first `n` leaves below them. -/
def realCount (n : ℕ) : ℕ → ℕ
  | 0 => n
  | k + 1 => (realCount n k + 1) / 2

theorem div_two_lt_realCount {n k i : ℕ} (h : i < realCount n k) :
    i / 2 < realCount n (k + 1) := by
  simp only [realCount]
  omega

theorem realCount_eq_ceilDiv (n k : ℕ) : realCount n k = n ⌈/⌉ 2 ^ k := by
  induction k with
  | zero => simp [realCount]
  | succ k ih =>
    have hpos := Nat.two_pow_pos k
    have hsucc : (n + 2 ^ k - 1) / 2 ^ k + 1 = (n + 2 ^ k - 1 + 2 ^ k) / 2 ^ k :=
      (Nat.add_div_right _ hpos).symm
    rw [realCount, ih, Nat.ceilDiv_eq_add_pred_div, Nat.ceilDiv_eq_add_pred_div, hsucc,
      Nat.div_div_eq_div_mul, ← pow_succ]
    congr 1
    rw [pow_succ]
    omega

theorem realCount_le {n h k : ℕ} (hn : n ≤ 2 ^ h) (hk : k ≤ h) : realCount n k ≤ 2 ^ (h - k) := by
  induction k with
  | zero => exact hn
  | succ k ih =>
    have hle := ih (by omega)
    have hpow : 2 ^ (h - k) = 2 * 2 ^ (h - (k + 1)) := by
      rw [← pow_succ', show h - (k + 1) + 1 = h - k by omega]
    simp only [realCount]
    omega

variable {zero hash} {leaf : ℕ → α} {n : ℕ}

/-- **The padding of a level** starts behind its real nodes. -/
theorem node_eq_zero_iff (hzero : ∀ l r, hash l r ≠ zero) (hleaf : ∀ i, leaf i = zero ↔ n ≤ i)
    (k i : ℕ) : node (paddedParent zero hash) leaf k i = zero ↔ realCount n k ≤ i := by
  induction k generalizing i with
  | zero => exact hleaf i
  | succ k ih =>
    have hl := ih (2 * i)
    simp only [node, paddedParent, realCount]
    split_ifs with h0 h1
    · exact iff_of_true rfl (by have := hl.1 h0; omega)
    · exact iff_of_false (hzero _ _) fun hle => h0 (hl.2 (by omega))
    · exact iff_of_false (hzero _ _) fun hle => h0 (hl.2 (by omega))

/-- **One step of a proof.** -/
theorem node_succ_eq (hzero : ∀ l r, hash l r ≠ zero) (hleaf : ∀ i, leaf i = zero ↔ n ≤ i)
    {k i : ℕ} (hi : i < realCount n k) :
    node (paddedParent zero hash) leaf (k + 1) (i / 2) =
      let current := node (paddedParent zero hash) leaf k i
      let sibling := if realCount n k ≤ i ^^^ 1 then current
        else node (paddedParent zero hash) leaf k (i ^^^ 1)
      if i % 2 = 0 then hash current sibling else hash sibling current := by
  have hne : ∀ j, node (paddedParent zero hash) leaf k j = zero ↔ realCount n k ≤ j :=
    node_eq_zero_iff hzero hleaf k
  rcases Nat.even_or_odd i with he | ho
  · have hmod : i % 2 = 0 := Nat.even_iff.1 he
    have hi2 : 2 * (i / 2) = i := by omega
    rw [Nat.xor_one_of_even he]
    simp only [node, paddedParent, hi2, hne, if_neg (show ¬ realCount n k ≤ i by omega), hmod,
      ↓reduceIte]
    split_ifs <;> rfl
  · have hmod : i % 2 ≠ 0 := by rw [Nat.odd_iff.1 ho]; decide
    have hi1 : 2 * (i / 2) = i - 1 := by omega
    have hi3 : i - 1 + 1 = i := by omega
    rw [Nat.xor_one_of_odd ho]
    simp only [node, paddedParent, hi1, hi3, hne, if_neg (show ¬ realCount n k ≤ i by omega),
      if_neg (show ¬ realCount n k ≤ i - 1 by omega), hmod, ↓reduceIte]

end

end MerkleTree
