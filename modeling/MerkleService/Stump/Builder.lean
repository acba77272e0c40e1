import Mathlib.Data.Finset.Sort
import Mathlib.Data.Nat.Log
import MerkleService.Data.MerkleTree

/-!
# The STUMP builder

`stump.Build` (`internal/stump/builder.go`) collects, for a set of registered leaves of a subtree,
the hashes that a BRC-74 proof needs: level by level, the siblings of the nodes on the paths from
the registered leaves to the root.  It ranges over Go maps, so the order in which a level is filled
is arbitrary; `MapOrder` is that order, and everything here holds for all of them.

* `build` follows the code.
* `build_eq` : **what it builds**, level by level: the needed offsets in ascending order, each with
  the leaf `siblingLeaf` that depends on nothing but the level and the offset.
-/

namespace MerkleService

namespace Stump

abbrev Bytes := List UInt8

/-- `stump.Leaf`; a leaf without hash has the empty one. -/
structure Leaf where
  offset : ℕ
  hash : Bytes := []
  txID : Bool := false
  duplicate : Bool := false
  deriving DecidableEq, Repr

structure PathLevel where
  leaves : List Leaf
  deriving DecidableEq, Repr

structure STUMP where
  blockHeight : ℕ
  treeHeight : ℕ
  paths : List PathLevel
  deriving DecidableEq, Repr

/-- The keys of the map `registeredIndices`, which are leaf indices.  (Its values, the txids, are
not used by the builder.) -/
structure RegisteredIndices (nLeaves : ℕ) where
  keys : List ℕ
  nodup : keys.Nodup
  lt : ∀ i ∈ keys, i < nLeaves

/-- The order in which the maps of the builder are ranged over at each level. -/
structure MapOrder where
  range : ℕ → List ℕ → List ℕ
  perm : ∀ level keys, (range level keys).Perm keys

/-- The order in which the keys were inserted. -/
def MapOrder.insertion : MapOrder := ⟨fun _ keys => keys, fun _ keys => .refl keys⟩

/-! ### The code -/

def nextPowerOfTwoLoop (n : ℕ) : ℕ → ℕ → ℕ
  | 0, p => p
  | fuel + 1, p => if p < n then nextPowerOfTwoLoop n fuel (p <<< 1) else p

def nextPowerOfTwo (n : ℕ) : ℕ :=
  if n ≤ 1 then 1 else nextPowerOfTwoLoop n n 1

/-- The loop that counts the levels: `for n := nextPoT; n > 1; n >>= 1`. -/
def treeHeightLoop : ℕ → ℕ → ℕ
  | 0, _ => 0
  | fuel + 1, n => if 1 < n then treeHeightLoop fuel (n >>> 1) + 1 else 0

def treeHeight (nextPoT : ℕ) : ℕ := treeHeightLoop nextPoT nextPoT

/-- The loop of `getNode` that skips the lower levels, each half as large as the one below. -/
def levelOffset : ℕ → ℕ → ℕ → ℕ
  | 0, off, _ => off
  | k + 1, off, sz => levelOffset k (off + sz) (sz >>> 1)

section

variable (leaves internalNodes : List Bytes)

/-- The hash at the given level and index, `none` for `nil`. -/
def getNode (level index : ℕ) : Option Bytes :=
  if level = 0 then leaves[index]?
  else internalNodes[levelOffset (level - 1) 0 (nextPowerOfTwo leaves.length >>> 1) + index]?

/-- The variables of the loop over `needed`. -/
structure Visit where
  addedOffsets : List ℕ := []
  pathLeaves : List Leaf := []
  nextNeeded : List ℕ := []

/-- Append a leaf, unless one with its offset was added before. -/
def Visit.add (v : Visit) (leaf : Leaf) : Visit :=
  if leaf.offset ∈ v.addedOffsets then v
  else { v with addedOffsets := v.addedOffsets ++ [leaf.offset],
                pathLeaves := v.pathLeaves ++ [leaf] }

variable (registeredIndices : RegisteredIndices leaves.length)

/-- At level 0, include the registered txid itself. -/
def addRegistered (level idx : ℕ) (v : Visit) : Visit :=
  if level = 0 then
    if h : idx ∈ registeredIndices.keys then
      v.add { offset := idx, hash := leaves.get ⟨idx, registeredIndices.lt idx h⟩, txID := true }
    else v
  else v

/-- The leaf for a sibling. -/
def siblingLeaf (level realCount siblingIdx : ℕ) : Leaf :=
  if realCount ≤ siblingIdx then { offset := siblingIdx, duplicate := true }
  else
    let txID := decide (level = 0 ∧ siblingIdx ∈ registeredIndices.keys)
    match getNode leaves internalNodes level siblingIdx with
    | some h => { offset := siblingIdx, hash := h, txID := txID }
    | none => { offset := siblingIdx, txID := txID, duplicate := true }

/-- The body of the loop over `needed`. -/
def visit (level realCount : ℕ) (v : Visit) (idx : ℕ) : Visit :=
  let v := addRegistered leaves registeredIndices level idx v
  let v := v.add (siblingLeaf leaves internalNodes registeredIndices level realCount (idx ^^^ 1))
  { v with nextNeeded := v.nextNeeded.insert (idx / 2) }

/-- `sort.Slice` by offset. -/
def sortLeaves (pathLeaves : List Leaf) : List Leaf :=
  pathLeaves.insertionSort (·.offset ≤ ·.offset)

variable (order : MapOrder)

/-- The loop over the levels: `remaining` of them from `level` on. -/
def buildLevels : (remaining level : ℕ) → (needed : List ℕ) → (realCount : ℕ) → List PathLevel
  | 0, _, _, _ => []
  | remaining + 1, level, needed, realCount =>
    let v := (order.range level needed).foldl
      (visit leaves internalNodes registeredIndices level realCount) {}
    ⟨sortLeaves v.pathLeaves⟩ ::
      buildLevels remaining (level + 1) v.nextNeeded ((realCount + 1) / 2)

/-- `stump.Build`. -/
def build (blockHeight : ℕ) : Option STUMP :=
  if registeredIndices.keys.length = 0 ∨ leaves.length = 0 then none
  else
    let height := treeHeight (nextPowerOfTwo leaves.length)
    if height = 0 then some ⟨blockHeight, 0, []⟩
    else some ⟨blockHeight, height, buildLevels leaves internalNodes registeredIndices order
      height 0 registeredIndices.keys leaves.length⟩

end

/-! ### Powers of two -/

theorem nextPowerOfTwoLoop_eq {n fuel a : ℕ} (ha : a ≤ Nat.clog 2 n)
    (hf : Nat.clog 2 n - a ≤ fuel) :
    nextPowerOfTwoLoop n fuel (2 ^ a) = 2 ^ Nat.clog 2 n := by
  induction fuel generalizing a with
  | zero => rw [nextPowerOfTwoLoop, show a = Nat.clog 2 n by omega]
  | succ fuel ih =>
    rw [nextPowerOfTwoLoop]
    split_ifs with hlt
    · have hlt' : a < Nat.clog 2 n := (Nat.lt_clog_iff_pow_lt (by omega)).2 hlt
      rw [Nat.shiftLeft_eq, pow_one, ← pow_succ]
      exact ih hlt' (by omega)
    · have : Nat.clog 2 n ≤ a := Nat.clog_le_of_le_pow (not_lt.1 hlt)
      rw [show a = Nat.clog 2 n by omega]

/-- `nextPowerOfTwo n` is the least power of two that is at least `n`. -/
theorem nextPowerOfTwo_eq (n : ℕ) : nextPowerOfTwo n = 2 ^ Nat.clog 2 n := by
  unfold nextPowerOfTwo
  split_ifs with h
  · rw [Nat.clog_of_right_le_one h, pow_zero]
  · have hfuel : Nat.clog 2 n ≤ n := Nat.clog_le_of_le_pow Nat.lt_two_pow_self.le
    exact nextPowerOfTwoLoop_eq (a := 0) (Nat.zero_le _) (by omega)

theorem treeHeightLoop_two_pow {fuel h : ℕ} (hf : h ≤ fuel) : treeHeightLoop fuel (2 ^ h) = h := by
  induction fuel generalizing h with
  | zero => rw [treeHeightLoop]; omega
  | succ fuel ih =>
    rw [treeHeightLoop]
    cases h with
    | zero => simp
    | succ h =>
      rw [if_pos (Nat.one_lt_two_pow (by omega)), Nat.shiftRight_one, pow_succ,
        Nat.mul_div_cancel _ (by omega), ih (by omega)]

theorem treeHeight_nextPowerOfTwo (n : ℕ) : treeHeight (nextPowerOfTwo n) = Nat.clog 2 n := by
  rw [nextPowerOfTwo_eq, treeHeight]
  exact treeHeightLoop_two_pow Nat.lt_two_pow_self.le

/-! ### What a level holds -/

section

variable {leaves internalNodes : List Bytes} {registeredIndices : RegisteredIndices leaves.length}
  {level realCount : ℕ}

@[simp] theorem siblingLeaf_offset (o : ℕ) :
    (siblingLeaf leaves internalNodes registeredIndices level realCount o).offset = o := by
  unfold siblingLeaf
  split_ifs
  · rfl
  · dsimp only
    split <;> rfl

/-- The leaf of a registered txid is what its neighbour would add for it. -/
theorem siblingLeaf_registered (internalNodes : List Bytes) {idx : ℕ}
    (h : idx ∈ registeredIndices.keys) :
    siblingLeaf leaves internalNodes registeredIndices 0 leaves.length idx =
      { offset := idx, hash := leaves.get ⟨idx, registeredIndices.lt idx h⟩, txID := true } := by
  have hlt := registeredIndices.lt idx h
  simp [siblingLeaf, getNode, hlt, h]

/-- The state of the loop over `needed` after visiting `idxs`: the leaves added are determined by
their offsets. -/
structure Visited (leaves internalNodes : List Bytes)
    (registeredIndices : RegisteredIndices leaves.length) (level realCount : ℕ) (idxs : List ℕ)
    (v : Visit) : Prop where
  leaf : v.pathLeaves =
    v.addedOffsets.map (siblingLeaf leaves internalNodes registeredIndices level realCount)
  nodup : v.addedOffsets.Nodup
  offset : ∀ o, o ∈ v.addedOffsets ↔
    (∃ i ∈ idxs, o = i ^^^ 1) ∨ (level = 0 ∧ o ∈ registeredIndices.keys ∧ o ∈ idxs)
  next : ∀ j, j ∈ v.nextNeeded ↔ ∃ i ∈ idxs, j = i / 2

theorem Visit.mem_addedOffsets_add {v : Visit} {leaf : Leaf} {o : ℕ} :
    o ∈ (v.add leaf).addedOffsets ↔ o ∈ v.addedOffsets ∨ o = leaf.offset := by
  unfold Visit.add
  split_ifs with h
  · constructor
    · exact Or.inl
    · rintro (ho | rfl)
      · exact ho
      · exact h
  · simp

theorem Visit.nodup_add {v : Visit} {leaf : Leaf} (h : v.addedOffsets.Nodup) :
    (v.add leaf).addedOffsets.Nodup := by
  unfold Visit.add
  split_ifs with hmem
  · exact h
  · exact List.nodup_append'.2 ⟨h, List.nodup_singleton _, by simpa using hmem⟩

theorem Visit.pathLeaves_add {v : Visit} {f : ℕ → Leaf} (hf : ∀ o, (f o).offset = o)
    (h : v.pathLeaves = v.addedOffsets.map f) (o : ℕ) :
    (v.add (f o)).pathLeaves = (v.add (f o)).addedOffsets.map f := by
  unfold Visit.add
  split_ifs with hmem
  · exact h
  · simp [h, hf]

theorem Visit.nextNeeded_add (v : Visit) (leaf : Leaf) :
    (v.add leaf).nextNeeded = v.nextNeeded := by
  unfold Visit.add
  split_ifs <;> rfl

/-- The two additions of one iteration, with the registered txid only at level 0. -/
theorem addRegistered_eq (internalNodes : List Bytes)
    (hlevel : level = 0 → realCount = leaves.length) (idx : ℕ) (v : Visit) :
    addRegistered leaves registeredIndices level idx v =
      if level = 0 ∧ idx ∈ registeredIndices.keys then
        v.add (siblingLeaf leaves internalNodes registeredIndices level realCount idx)
      else v := by
  unfold addRegistered
  by_cases h0 : level = 0
  · subst h0
    by_cases hreg : idx ∈ registeredIndices.keys
    · simp only [hreg, ↓reduceDIte, ↓reduceIte, and_self, hlevel rfl,
        siblingLeaf_registered internalNodes hreg]
    · simp [hreg]
  · simp [h0]

theorem visited_visit (hlevel : level = 0 → realCount = leaves.length) {idxs : List ℕ} {v : Visit}
    (h : Visited leaves internalNodes registeredIndices level realCount idxs v) (idx : ℕ) :
    Visited leaves internalNodes registeredIndices level realCount (idxs ++ [idx])
      (visit leaves internalNodes registeredIndices level realCount v idx) := by
  obtain ⟨hleaf, hnodup, hoff, hnext⟩ := h
  have hf : ∀ o,
      (siblingLeaf leaves internalNodes registeredIndices level realCount o).offset = o :=
    siblingLeaf_offset
  simp only [visit, addRegistered_eq internalNodes hlevel]
  split_ifs with hreg
  · refine ⟨Visit.pathLeaves_add hf (Visit.pathLeaves_add hf hleaf _) _,
      Visit.nodup_add (Visit.nodup_add hnodup), fun o => ?_, fun j => ?_⟩
    · simp only [Visit.mem_addedOffsets_add, hf, hoff, List.mem_append, List.mem_singleton]
      grind
    · simp only [Visit.nextNeeded_add, List.mem_insert_iff, hnext, List.mem_append,
        List.mem_singleton]
      grind
  · refine ⟨Visit.pathLeaves_add hf hleaf _, Visit.nodup_add hnodup, fun o => ?_, fun j => ?_⟩
    · simp only [Visit.mem_addedOffsets_add, hf, hoff, List.mem_append, List.mem_singleton]
      grind
    · simp only [Visit.nextNeeded_add, List.mem_insert_iff, hnext, List.mem_append,
        List.mem_singleton]
      grind

/-- **The loop over `needed`**, in whatever order. -/
theorem visited_foldl (hlevel : level = 0 → realCount = leaves.length) (idxs : List ℕ) :
    Visited leaves internalNodes registeredIndices level realCount idxs
      (idxs.foldl (visit leaves internalNodes registeredIndices level realCount) {}) := by
  induction idxs using List.reverseRecOn with
  | nil => exact ⟨rfl, List.nodup_nil, by simp, by simp⟩
  | append_singleton idxs idx ih =>
    rw [List.foldl_append]
    exact visited_visit hlevel ih idx

theorem sortLeaves_map {f : ℕ → Leaf} (hf : ∀ o, (f o).offset = o) {offs : List ℕ}
    (hn : offs.Nodup) : sortLeaves (offs.map f) = offs.toFinset.sort.map f := by
  have hsort : offs.toFinset.sort = offs.insertionSort (· ≤ ·) := by
    have hp := List.perm_insertionSort (· ≤ ·) offs
    rw [← (List.toFinset_sort (· ≤ ·) (hp.nodup_iff.2 hn)).2 (List.pairwise_insertionSort _ _),
      List.toFinset_eq_of_perm _ _ hp]
  rw [hsort, sortLeaves]
  exact (List.map_insertionSort (· ≤ ·) (fun a b : Leaf => a.offset ≤ b.offset) f offs
    (by simp [hf])).symm

end

/-! ### What is built -/

/-- The offsets on level `k` of a STUMP: the siblings of the nodes above the registered leaves and,
on level 0, these leaves themselves. -/
def pathOffsets (keys : List ℕ) (k : ℕ) : Finset ℕ :=
  (keys.map fun r => (r / 2 ^ k) ^^^ 1).toFinset ∪ if k = 0 then keys.toFinset else ∅

theorem mem_pathOffsets {keys : List ℕ} {k o : ℕ} :
    o ∈ pathOffsets keys k ↔ (∃ r ∈ keys, o = (r / 2 ^ k) ^^^ 1) ∨ (k = 0 ∧ o ∈ keys) := by
  unfold pathOffsets
  split_ifs with hk <;> simp [hk, eq_comm]

section

variable (leaves internalNodes : List Bytes) (registeredIndices : RegisteredIndices leaves.length)

/-- Level `k` of the STUMP. -/
def levelOf (k : ℕ) : PathLevel :=
  ⟨(pathOffsets registeredIndices.keys k).sort.map (siblingLeaf leaves internalNodes
    registeredIndices k (MerkleTree.realCount leaves.length k))⟩

variable {leaves internalNodes registeredIndices}

theorem map_offset_levelOf (k : ℕ) :
    (levelOf leaves internalNodes registeredIndices k).leaves.map Leaf.offset =
      (pathOffsets registeredIndices.keys k).sort := by
  rw [levelOf, List.map_map]
  exact (List.map_congr_left fun o _ => siblingLeaf_offset o).trans (List.map_id _)

theorem buildLevels_eq (order : MapOrder) {remaining level : ℕ} {needed : List ℕ}
    (hneeded : ∀ j, j ∈ needed ↔ ∃ r ∈ registeredIndices.keys, j = r / 2 ^ level) :
    buildLevels leaves internalNodes registeredIndices order remaining level needed
        (MerkleTree.realCount leaves.length level) =
      (List.range remaining).map fun j =>
        levelOf leaves internalNodes registeredIndices (level + j) := by
  induction remaining generalizing level needed with
  | zero => rfl
  | succ remaining ih =>
    have hv : Visited leaves internalNodes registeredIndices level
        (MerkleTree.realCount leaves.length level) (order.range level needed) _ :=
      visited_foldl (by rintro rfl; rfl) (order.range level needed)
    have hmem : ∀ i, i ∈ order.range level needed ↔
        ∃ r ∈ registeredIndices.keys, i = r / 2 ^ level :=
      fun i => ((order.perm level needed).mem_iff).trans (hneeded i)
    obtain ⟨hleaf, hnodup, hoff, hnext⟩ := hv
    rw [buildLevels, List.range_succ_eq_map, List.map_cons, List.map_map]
    congr 1
    · rw [hleaf, sortLeaves_map siblingLeaf_offset hnodup, levelOf, Nat.add_zero]
      congr 3
      ext o
      rw [List.mem_toFinset, hoff, mem_pathOffsets]
      constructor
      · rintro (⟨i, hi, rfl⟩ | ⟨rfl, hreg, -⟩)
        · obtain ⟨r, hr, rfl⟩ := (hmem i).1 hi
          exact Or.inl ⟨r, hr, rfl⟩
        · exact Or.inr ⟨rfl, hreg⟩
      · rintro (⟨r, hr, rfl⟩ | ⟨rfl, hreg⟩)
        · exact Or.inl ⟨_, (hmem _).2 ⟨r, hr, rfl⟩, rfl⟩
        · exact Or.inr ⟨rfl, hreg, (hmem _).2 ⟨o, hreg, by simp⟩⟩
    · refine (ih fun j => ?_).trans (List.map_congr_left fun j _ => ?_)
      · rw [hnext]
        constructor
        · rintro ⟨i, hi, rfl⟩
          obtain ⟨r, hr, rfl⟩ := (hmem i).1 hi
          exact ⟨r, hr, by rw [Nat.div_div_eq_div_mul, pow_succ]⟩
        · rintro ⟨r, hr, rfl⟩
          exact ⟨_, (hmem _).2 ⟨r, hr, rfl⟩, by rw [Nat.div_div_eq_div_mul, pow_succ]⟩
      · rw [Function.comp_apply, Nat.add_assoc, Nat.add_comm 1]

/-- **What `Build` builds** for at least two leaves, whatever the iteration order. -/
theorem build_eq (order : MapOrder) (blockHeight : ℕ) (hn : 2 ≤ leaves.length)
    (hreg : registeredIndices.keys ≠ []) :
    build leaves internalNodes registeredIndices order blockHeight =
      some ⟨blockHeight, Nat.clog 2 leaves.length, (List.range (Nat.clog 2 leaves.length)).map
        (levelOf leaves internalNodes registeredIndices)⟩ := by
  have hpos : 0 < Nat.clog 2 leaves.length := Nat.clog_pos (by omega) (by omega)
  have hlevels : buildLevels leaves internalNodes registeredIndices order
      (Nat.clog 2 leaves.length) 0 registeredIndices.keys leaves.length = _ :=
    buildLevels_eq order (by simp)
  rw [build, if_neg (by rw [List.length_eq_zero_iff]; rintro (h | h); exacts [hreg h, by omega]),
    treeHeight_nextPowerOfTwo, if_neg hpos.ne', hlevels]
  simp only [Nat.zero_add]

end

end Stump

end MerkleService
