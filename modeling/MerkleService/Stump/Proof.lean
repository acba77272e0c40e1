import MerkleService.Stump.Codec

/-!
# A STUMP proves its transactions

The verifier of a STUMP is the BRC-74 walk: starting from a leaf flagged as a txid it combines the
working hash with its sibling on each level, where a leaf flagged as duplicate stands for the
working hash itself.

* `merkleTreeStore` : the inner nodes as go-subtree's `BuildMerkleTreeStoreFromBytes` returns them,
  which is also how the tests of the builder compute them (`buildTestTree`).
* `getNode_eq_nodeAt` : `getNode` reads the node it is asked for.
* `walk_build` : **the walk from every registered leaf ends in the root of the subtree**.
* `build_exact` : **the STUMP contains exactly the hashes that these walks need**.
* `encodable_of_build` : what the builder builds is encoded without loss.
-/

namespace MerkleService

namespace Stump

/-! ### The verifier -/

section

variable (hash : Bytes → Bytes → Bytes)

/-- The walk over `remaining` levels from `level` on, at `offset` with the working hash `w`. -/
def STUMP.walkFrom (s : STUMP) : (remaining level offset : ℕ) → (w : Bytes) → Option Bytes
  | 0, _, _, w => some w
  | remaining + 1, level, offset, w => do
    let pathLevel ← s.paths[level]?
    let leaf ← pathLevel.leaves.find? fun l => l.offset = offset ^^^ 1
    let sibling := if leaf.duplicate then w else leaf.hash
    s.walkFrom remaining (level + 1) (offset / 2)
      (if offset % 2 = 0 then hash w sibling else hash sibling w)

/-- The walk from the txid leaf at offset `r`; `none` if it, or a sibling, is missing. -/
def STUMP.walk (s : STUMP) (r : ℕ) : Option Bytes := do
  let pathLevel ← s.paths[0]?
  let leaf ← pathLevel.leaves.find? fun l => l.offset = r ∧ l.txID
  s.walkFrom hash s.treeHeight 0 r leaf.hash

/-! ### The tree of a subtree -/

def zeroHash : Bytes := List.replicate 32 0

/-- The leaves, padded with zero hashes. -/
def paddedLeaf (leaves : List Bytes) (i : ℕ) : Bytes := leaves.getD i zeroHash

/-- Node `i` of level `k` of the subtree. -/
def treeNode (leaves : List Bytes) (k i : ℕ) : Bytes :=
  MerkleTree.node (MerkleTree.paddedParent zeroHash hash) (paddedLeaf leaves) k i

/-- `BuildMerkleTreeStoreFromBytes`: the inner nodes, level by level. -/
def merkleTreeStore (leaves : List Bytes) : List Bytes :=
  MerkleTree.store (MerkleTree.paddedParent zeroHash hash)
    (treeHeight (nextPowerOfTwo leaves.length))
    ((List.range (nextPowerOfTwo leaves.length)).map (paddedLeaf leaves))

end

theorem levelOffset_two_pow {m k : ℕ} (hk : k ≤ m + 1) (off : ℕ) :
    levelOffset k off (2 ^ m) = off + (2 ^ (m + 1) - 2 ^ (m + 1 - k)) := by
  induction k generalizing m off with
  | zero => simp [levelOffset]
  | succ k ih =>
    rw [levelOffset, Nat.shiftRight_one]
    cases m with
    | zero =>
      obtain rfl : k = 0 := by omega
      simp [levelOffset]
    | succ m =>
      have hle : 2 ^ (m + 1 - k) ≤ 2 ^ (m + 1) := Nat.pow_le_pow_right (by omega) (by omega)
      rw [pow_succ, Nat.mul_div_cancel _ (by omega), ih (by omega),
        show m + 1 + 1 - (k + 1) = m + 1 - k by omega, pow_succ 2 (m + 1)]
      have := pow_succ 2 m
      omega

section

variable {hash : Bytes → Bytes → Bytes} {leaves : List Bytes}

/-- Node `i` of level `k` as it is stored: level `k` of the inner nodes starts behind the levels
`1, …, k - 1`. -/
def nodeAt (leaves internalNodes : List Bytes) (k i : ℕ) : Option Bytes :=
  if k = 0 then leaves[i]?
  else
    let h := Nat.clog 2 leaves.length
    internalNodes[2 ^ h - 2 ^ (h + 1 - k) + i]?

/-- **`getNode` reads the node it is asked for.** -/
theorem getNode_eq_nodeAt (internalNodes : List Bytes) {k : ℕ} (hk : k < Nat.clog 2 leaves.length)
    (i : ℕ) : getNode leaves internalNodes k i = nodeAt leaves internalNodes k i := by
  unfold getNode nodeAt
  cases k with
  | zero => rfl
  | succ k =>
    obtain ⟨m, hm⟩ := Nat.exists_eq_succ_of_ne_zero (show Nat.clog 2 leaves.length ≠ 0 by omega)
    have hoff : levelOffset k 0 (nextPowerOfTwo leaves.length >>> 1) =
        2 ^ Nat.clog 2 leaves.length - 2 ^ (Nat.clog 2 leaves.length - k) := by
      rw [nextPowerOfTwo_eq, hm, Nat.succ_eq_add_one, Nat.shiftRight_one, pow_succ,
        Nat.mul_div_cancel _ (by omega), levelOffset_two_pow (by omega), ← pow_succ, Nat.zero_add]
    rw [if_neg (by omega), if_neg (by omega), Nat.add_sub_cancel, hoff]
    simp only [Nat.add_sub_add_right]

theorem nodeAt_store {k i : ℕ} (hk : k < Nat.clog 2 leaves.length)
    (hi : i < MerkleTree.realCount leaves.length k) :
    nodeAt leaves (merkleTreeStore hash leaves) k i = some (treeNode hash leaves k i) := by
  unfold nodeAt
  cases k with
  | zero =>
    have hi' : i < leaves.length := hi
    simp [treeNode, MerkleTree.node, paddedLeaf, hi']
  | succ k =>
    have hn : leaves.length ≤ 2 ^ Nat.clog 2 leaves.length := Nat.le_pow_clog (by omega) _
    have hi' := hi.trans_le (MerkleTree.realCount_le hn (by omega))
    rw [if_neg (by omega), merkleTreeStore, treeHeight_nextPowerOfTwo, nextPowerOfTwo_eq]
    simp only [Nat.add_sub_add_right]
    exact MerkleTree.getElem?_store _ _ (by omega) hi'

theorem getNode_store {k i : ℕ} (hk : k < Nat.clog 2 leaves.length)
    (hi : i < MerkleTree.realCount leaves.length k) :
    getNode leaves (merkleTreeStore hash leaves) k i = some (treeNode hash leaves k i) := by
  rw [getNode_eq_nodeAt _ hk, nodeAt_store hk hi]

theorem exists_nodeAt {internalNodes : List Bytes}
    (hlen : internalNodes.length = nextPowerOfTwo leaves.length - 1) {k i : ℕ}
    (hk : k < Nat.clog 2 leaves.length) (hi : i < MerkleTree.realCount leaves.length k) :
    ∃ h, nodeAt leaves internalNodes k i = some h := by
  unfold nodeAt
  cases k with
  | zero =>
    have hi' : i < leaves.length := hi
    exact ⟨leaves[i], by simp [hi']⟩
  | succ k =>
    have hn : leaves.length ≤ 2 ^ Nat.clog 2 leaves.length := Nat.le_pow_clog (by omega) _
    have hi' := hi.trans_le (MerkleTree.realCount_le hn (by omega))
    have hhalf : 2 ^ (Nat.clog 2 leaves.length - k) =
        2 * 2 ^ (Nat.clog 2 leaves.length - (k + 1)) := by
      rw [← pow_succ', show Nat.clog 2 leaves.length - (k + 1) + 1 =
        Nat.clog 2 leaves.length - k by omega]
    have hle : 2 ^ (Nat.clog 2 leaves.length - k) ≤ 2 ^ Nat.clog 2 leaves.length :=
      Nat.pow_le_pow_right (by omega) (by omega)
    rw [nextPowerOfTwo_eq] at hlen
    have hlt : 2 ^ Nat.clog 2 leaves.length - 2 ^ (Nat.clog 2 leaves.length - k) + i <
        internalNodes.length := by omega
    refine ⟨internalNodes.get ⟨_, hlt⟩, ?_⟩
    rw [if_neg (by omega)]
    simp only [Nat.add_sub_add_right]
    exact List.getElem?_eq_getElem hlt

theorem find?_map_eq {β : Type*} {f : ℕ → β} {p : β → Bool} {offs : List ℕ} {o : ℕ} (ho : o ∈ offs)
    (hp : p (f o) = true) (honly : ∀ x, p (f x) = true → x = o) :
    (offs.map f).find? p = some (f o) := by
  obtain ⟨l, hl⟩ := Option.isSome_iff_exists.1
    (List.find?_isSome.2 ⟨f o, List.mem_map_of_mem ho, hp⟩)
  obtain ⟨x, -, rfl⟩ := List.mem_map.1 (List.mem_of_find?_eq_some hl)
  rw [hl, honly x (List.find?_some hl)]

variable {registeredIndices : RegisteredIndices leaves.length}

theorem siblingLeaf_value (hash : Bytes → Bytes → Bytes)
    (registeredIndices : RegisteredIndices leaves.length) {k : ℕ}
    (hk : k < Nat.clog 2 leaves.length) (o : ℕ) (w : Bytes) :
    (let leaf := siblingLeaf leaves (merkleTreeStore hash leaves) registeredIndices k
        (MerkleTree.realCount leaves.length k) o
      if leaf.duplicate then w else leaf.hash) =
      if MerkleTree.realCount leaves.length k ≤ o then w else treeNode hash leaves k o := by
  unfold siblingLeaf
  by_cases ho : MerkleTree.realCount leaves.length k ≤ o
  · simp [ho]
  · simp [ho, getNode_store hk (not_le.1 ho)]

theorem getElem?_paths {n h k : ℕ} {f : ℕ → PathLevel} (hk : k < h) :
    (⟨n, h, (List.range h).map f⟩ : STUMP).paths[k]? = some (f k) := by
  simp [hk]

theorem paddedLeaf_eq_zero (hleaves : ∀ l ∈ leaves, l ≠ zeroHash) (i : ℕ) :
    paddedLeaf leaves i = zeroHash ↔ leaves.length ≤ i := by
  rcases lt_or_ge i leaves.length with hi | hi
  · refine iff_of_false ?_ (by omega)
    simpa [paddedLeaf, hi] using hleaves _ (List.getElem_mem hi)
  · exact iff_of_true (by simp [paddedLeaf, hi]) hi

/-- **The walk** follows the tree: from the node above a registered leaf on level `level` it
reaches the node `remaining` levels higher. -/
theorem walkFrom_levelOf (hhash : ∀ l r, hash l r ≠ zeroHash)
    (hleaves : ∀ l ∈ leaves, l ≠ zeroHash) (blockHeight level : ℕ) {remaining r : ℕ}
    (hlevel : level + remaining = Nat.clog 2 leaves.length) (hr : r ∈ registeredIndices.keys)
    (hreal : r / 2 ^ level < MerkleTree.realCount leaves.length level) :
    (⟨blockHeight, Nat.clog 2 leaves.length, (List.range (Nat.clog 2 leaves.length)).map
        (levelOf leaves (merkleTreeStore hash leaves) registeredIndices)⟩ : STUMP).walkFrom hash
          remaining level (r / 2 ^ level) (treeNode hash leaves level (r / 2 ^ level)) =
      some (treeNode hash leaves (Nat.clog 2 leaves.length)
        (r / 2 ^ Nat.clog 2 leaves.length)) := by
  induction remaining generalizing level with
  | zero =>
    obtain rfl : level = Nat.clog 2 leaves.length := by omega
    rfl
  | succ remaining ih =>
    have hk : level < Nat.clog 2 leaves.length := by omega
    have hfind : (levelOf leaves (merkleTreeStore hash leaves) registeredIndices level).leaves.find?
        (fun l => l.offset = (r / 2 ^ level) ^^^ 1) = some _ :=
      find?_map_eq ((Finset.mem_sort _).2 (mem_pathOffsets.2 (Or.inl ⟨r, hr, rfl⟩)))
        (by simp) (by simp)
    have hzero := paddedLeaf_eq_zero hleaves
    have hstep := MerkleTree.node_succ_eq hhash hzero hreal
    have hdiv : r / 2 ^ level / 2 = r / 2 ^ (level + 1) := by
      rw [Nat.div_div_eq_div_mul, pow_succ]
    have hval := siblingLeaf_value hash registeredIndices hk ((r / 2 ^ level) ^^^ 1)
      (treeNode hash leaves level (r / 2 ^ level))
    have hreal' := MerkleTree.div_two_lt_realCount hreal
    rw [hdiv] at hreal' hstep
    rw [STUMP.walkFrom, getElem?_paths hk]
    simp only [Option.bind_eq_bind, Option.bind_some, hfind, hdiv]
    rw [← ih (level + 1) (by omega) hreal']
    congr 1
    simp only [hval]
    exact hstep.symm

theorem getLast?_merkleTreeStore (hash : Bytes → Bytes → Bytes) (hn : 2 ≤ leaves.length) :
    (merkleTreeStore hash leaves).getLast? =
      some (treeNode hash leaves (Nat.clog 2 leaves.length) 0) := by
  rw [merkleTreeStore, treeHeight_nextPowerOfTwo, nextPowerOfTwo_eq]
  exact MerkleTree.getLast?_store _ _ (Nat.clog_pos (by omega) (by omega))

theorem find?_registered (internalNodes : List Bytes) {r : ℕ} (hr : r ∈ registeredIndices.keys) :
    (levelOf leaves internalNodes registeredIndices 0).leaves.find?
        (fun l => l.offset = r ∧ l.txID) =
      some { offset := r, hash := leaves.get ⟨r, registeredIndices.lt r hr⟩, txID := true } := by
  have hmem := (Finset.mem_sort (· ≤ ·)).2 (mem_pathOffsets.2 (Or.inr ⟨rfl, hr⟩))
  have hreg := siblingLeaf_registered internalNodes hr
  rw [← hreg]
  exact find?_map_eq hmem (by simp [MerkleTree.realCount, hreg]) (by simp +contextual)

theorem mem_keys_of_txID {internalNodes : List Bytes} {leaf : Leaf}
    (hleaf : leaf ∈ (levelOf leaves internalNodes registeredIndices 0).leaves)
    (ht : leaf.txID = true) : leaf.offset ∈ registeredIndices.keys := by
  obtain ⟨o, -, rfl⟩ := List.mem_map.1 hleaf
  rw [siblingLeaf_offset]
  unfold siblingLeaf at ht
  split_ifs at ht
  dsimp only at ht
  split at ht <;> simpa using ht

theorem walk_levelOf (hhash : ∀ l r, hash l r ≠ zeroHash) (hn : 2 ≤ leaves.length)
    (hleaves : ∀ l ∈ leaves, l ≠ zeroHash) (blockHeight : ℕ) {r : ℕ}
    (hr : r ∈ registeredIndices.keys) :
    (⟨blockHeight, Nat.clog 2 leaves.length, (List.range (Nat.clog 2 leaves.length)).map
        (levelOf leaves (merkleTreeStore hash leaves) registeredIndices)⟩ : STUMP).walk hash r =
      some (treeNode hash leaves (Nat.clog 2 leaves.length) 0) := by
  have hpos : 0 < Nat.clog 2 leaves.length := Nat.clog_pos (by omega) (by omega)
  have hlt := registeredIndices.lt r hr
  have hroot : r / 2 ^ Nat.clog 2 leaves.length = 0 :=
    Nat.div_eq_of_lt (hlt.trans_le (Nat.le_pow_clog (by omega) _))
  have hleaf : treeNode hash leaves 0 r = leaves.get ⟨r, hlt⟩ := by
    simp [treeNode, MerkleTree.node, paddedLeaf, hlt]
  have hwalk := walkFrom_levelOf hhash hleaves blockHeight 0 (Nat.zero_add _) hr
    (by simpa [MerkleTree.realCount] using hlt)
  rw [hroot, pow_zero, Nat.div_one, hleaf] at hwalk
  rw [STUMP.walk, getElem?_paths hpos]
  simp only [Option.bind_eq_bind, Option.bind_some, find?_registered _ hr]
  exact hwalk

/-- **A STUMP proves its transactions.**  For at least two leaves, none of them zero, and a hash
that is never zero, the walk over the STUMP built for a set of leaves finds a sibling on every
level and ends, from every leaf of the set, in the last inner node: the root of the subtree. -/
theorem walk_build (hhash : ∀ l r, hash l r ≠ zeroHash) (hn : 2 ≤ leaves.length)
    (hleaves : ∀ l ∈ leaves, l ≠ zeroHash) (order : MapOrder) (blockHeight : ℕ) {r : ℕ}
    (hr : r ∈ registeredIndices.keys) :
    ∃ s root, build leaves (merkleTreeStore hash leaves) registeredIndices order blockHeight =
        some s ∧
      (merkleTreeStore hash leaves).getLast? = some root ∧ s.walk hash r = some root :=
  ⟨_, _, build_eq order blockHeight hn (List.ne_nil_of_mem hr), getLast?_merkleTreeStore hash hn,
    walk_levelOf hhash hn hleaves blockHeight hr⟩

end

/-- Three leaves, of which the first and the last, which has no sibling, are registered. -/
theorem walk_build_three :
    let hash : Bytes → Bytes → Bytes := fun l r => 1 :: (l ++ r)
    let leaves : List Bytes := [List.replicate 32 1, List.replicate 32 2, List.replicate 32 3]
    let registered : RegisteredIndices leaves.length := ⟨[2, 0], by decide, by decide⟩
    ∃ s root, build leaves (merkleTreeStore hash leaves) registered .insertion 7 = some s ∧
      (merkleTreeStore hash leaves).getLast? = some root ∧ s.walk hash 2 = some root :=
  walk_build (fun l r => by simp [zeroHash, List.replicate_succ]) (by decide) (by decide)
    .insertion 7 (by decide)

/-! ### A STUMP contains what is needed -/

section

variable {leaves internalNodes : List Bytes} {registeredIndices : RegisteredIndices leaves.length}

/-- Level `k` of a STUMP for the leaves `keys` holds the siblings of the nodes above these leaves
and, on level 0, the leaves themselves, and nothing else. -/
structure ExactLevel (leaves internalNodes : List Bytes) (keys : List ℕ) (k : ℕ)
    (level : PathLevel) : Prop where
  offset : ∀ o, o ∈ level.leaves.map Leaf.offset ↔
    (∃ r ∈ keys, o = (r >>> k) ^^^ 1) ∨ k = 0 ∧ o ∈ keys
  ascending : (level.leaves.map Leaf.offset).Pairwise (· < ·)
  txID : ∀ leaf ∈ level.leaves, leaf.txID = true ↔ k = 0 ∧ leaf.offset ∈ keys
  duplicate : ∀ leaf ∈ level.leaves, leaf.duplicate = true ↔ leaves.length ⌈/⌉ 2 ^ k ≤ leaf.offset
  hash : ∀ leaf ∈ level.leaves, leaf.duplicate = false →
    nodeAt leaves internalNodes k leaf.offset = some leaf.hash
  node : ∀ hash, internalNodes = merkleTreeStore hash leaves → ∀ leaf ∈ level.leaves,
    leaf.duplicate = false → leaf.hash = treeNode hash leaves k leaf.offset

theorem siblingLeaf_cases (hlen : internalNodes.length = nextPowerOfTwo leaves.length - 1) {k : ℕ}
    (hk : k < Nat.clog 2 leaves.length) (o : ℕ) :
    (MerkleTree.realCount leaves.length k ≤ o ∧
      siblingLeaf leaves internalNodes registeredIndices k
        (MerkleTree.realCount leaves.length k) o = { offset := o, duplicate := true }) ∨
    o < MerkleTree.realCount leaves.length k ∧ ∃ h, nodeAt leaves internalNodes k o = some h ∧
      siblingLeaf leaves internalNodes registeredIndices k
        (MerkleTree.realCount leaves.length k) o =
      { offset := o, hash := h, txID := decide (k = 0 ∧ o ∈ registeredIndices.keys) } := by
  unfold siblingLeaf
  rcases le_or_gt (MerkleTree.realCount leaves.length k) o with ho | ho
  · exact Or.inl ⟨ho, if_pos ho⟩
  · obtain ⟨h, hh⟩ := exists_nodeAt hlen hk ho
    refine Or.inr ⟨ho, h, hh, ?_⟩
    rw [if_neg (not_le.2 ho)]
    simp only [getNode_eq_nodeAt _ hk, hh]

theorem exactLevel_levelOf (hlen : internalNodes.length = nextPowerOfTwo leaves.length - 1) {k : ℕ}
    (hk : k < Nat.clog 2 leaves.length) :
    ExactLevel leaves internalNodes registeredIndices.keys k
      (levelOf leaves internalNodes registeredIndices k) := by
  have hleaf : ∀ {P : Leaf → Prop}, (∀ o, P (siblingLeaf leaves internalNodes registeredIndices k
      (MerkleTree.realCount leaves.length k) o)) →
      ∀ leaf ∈ (levelOf leaves internalNodes registeredIndices k).leaves, P leaf := by
    intro P hP leaf hmem
    obtain ⟨o, -, rfl⟩ := List.mem_map.1 hmem
    exact hP o
  have hlt : ∀ o, k = 0 → o ∈ registeredIndices.keys →
      o < MerkleTree.realCount leaves.length k := by
    rintro o rfl ho
    exact registeredIndices.lt o ho
  refine ⟨?_, ?_, hleaf fun o => ?_, hleaf fun o => ?_, hleaf fun o hdup => ?_, ?_⟩
  · intro o
    rw [map_offset_levelOf, Finset.mem_sort, mem_pathOffsets]
    simp only [Nat.shiftRight_eq_div_pow]
  · rw [map_offset_levelOf]
    exact Finset.sortedLT_sort _ |>.pairwise
  · rcases siblingLeaf_cases hlen hk o with ⟨ho, heq⟩ | ⟨ho, h, -, heq⟩
    · rw [heq]
      refine iff_of_false (by simp) ?_
      rintro ⟨hzero, hmem⟩
      exact absurd (hlt o hzero hmem) (not_lt.2 ho)
    · rw [heq]
      simp
  · rw [← MerkleTree.realCount_eq_ceilDiv]
    rcases siblingLeaf_cases hlen hk o with ⟨ho, heq⟩ | ⟨ho, h, -, heq⟩
    · rw [heq]
      exact iff_of_true rfl ho
    · rw [heq]
      exact iff_of_false (by simp) (not_le.2 ho)
  · rcases siblingLeaf_cases hlen hk o with ⟨ho, heq⟩ | ⟨ho, h, hnode, heq⟩
    · rw [heq] at hdup
      cases hdup
    · rw [heq]
      exact hnode
  · rintro hash rfl
    refine hleaf fun o hdup => ?_
    rcases siblingLeaf_cases hlen hk o with ⟨ho, heq⟩ | ⟨ho, h, hnode, heq⟩
    · rw [heq] at hdup
      cases hdup
    · rw [heq]
      rw [nodeAt_store hk ho, Option.some.injEq] at hnode
      exact hnode.symm

/-- **A STUMP contains exactly what is needed.**  For at least two leaves and an array of the
length of the inner nodes of their tree, whatever the iteration order of the maps: the tree height
is the least `h` with `n ≤ 2 ^ h`, every level is exact, and what is encoded does not depend on the
order. -/
theorem build_exact (hn : 2 ≤ leaves.length)
    (hlen : internalNodes.length = nextPowerOfTwo leaves.length - 1)
    (hreg : registeredIndices.keys ≠ []) (order : MapOrder) (blockHeight : ℕ) :
    ∃ s, build leaves internalNodes registeredIndices order blockHeight = some s ∧
      s.blockHeight = blockHeight ∧ IsLeast {h | leaves.length ≤ 2 ^ h} s.treeHeight ∧
      s.paths.length = s.treeHeight ∧
      (∀ k level, s.paths[k]? = some level →
        ExactLevel leaves internalNodes registeredIndices.keys k level) ∧
      ∀ order', encode (build leaves internalNodes registeredIndices order' blockHeight) =
        s.encode := by
  refine ⟨_, build_eq order blockHeight hn hreg, rfl, ⟨?_, ?_⟩, ?_, ?_, ?_⟩
  · exact Nat.le_pow_clog (by omega) _
  · intro h hh
    exact Nat.clog_le_of_le_pow hh
  · simp
  · intro k level hlevel
    have hk : k < Nat.clog 2 leaves.length := by
      have hlt := (List.getElem?_eq_some_iff.1 hlevel).1
      simpa using hlt
    rw [getElem?_paths hk, Option.some.injEq] at hlevel
    subst hlevel
    exact exactLevel_levelOf hlen hk
  · intro order'
    rw [build_eq order' blockHeight hn hreg]
    rfl

end

/-- Three leaves; the array need not be a hash tree. -/
theorem build_exact_three :
    let leaves : List Bytes := [List.replicate 32 1, List.replicate 32 2, List.replicate 32 3]
    let internalNodes : List Bytes :=
      [List.replicate 32 4, List.replicate 32 5, List.replicate 32 6]
    let registered : RegisteredIndices leaves.length := ⟨[2, 0], by decide, by decide⟩
    ∃ s, build leaves internalNodes registered .insertion 7 = some s ∧
      IsLeast {h | leaves.length ≤ 2 ^ h} s.treeHeight ∧
      ∀ k level, s.paths[k]? = some level →
        ExactLevel leaves internalNodes registered.keys k level := by
  intro leaves internalNodes registered
  obtain ⟨s, hs, -, hheight, -, hlevels, -⟩ :=
    @build_exact leaves internalNodes registered (by decide) (by decide) (by decide) .insertion 7
  exact ⟨s, hs, hheight, hlevels⟩

/-! ### A STUMP is encoded without loss -/

section

variable {hash : Bytes → Bytes → Bytes} {leaves internalNodes : List Bytes}
  {registeredIndices : RegisteredIndices leaves.length}

/-- What `Build` returns: nothing but the block height for a single leaf, otherwise all levels. -/
theorem build_cases {order : MapOrder} {blockHeight : ℕ} {s : STUMP}
    (h : build leaves internalNodes registeredIndices order blockHeight = some s) :
    s = ⟨blockHeight, 0, []⟩ ∨
      2 ≤ leaves.length ∧ s = ⟨blockHeight, Nat.clog 2 leaves.length,
        (List.range (Nat.clog 2 leaves.length)).map
          (levelOf leaves internalNodes registeredIndices)⟩ := by
  by_cases hn : 2 ≤ leaves.length
  · by_cases hreg : registeredIndices.keys = []
    · simp [build, hreg] at h
    · rw [build_eq order blockHeight hn hreg, Option.some.injEq] at h
      exact Or.inr ⟨hn, h.symm⟩
  · have hheight : treeHeight (nextPowerOfTwo leaves.length) = 0 := by
      rw [treeHeight_nextPowerOfTwo, Nat.clog_of_right_le_one (by omega)]
    unfold build at h
    split_ifs at h
    simp only [hheight, ↓reduceIte, Option.some.injEq] at h
    exact Or.inl h.symm

theorem length_of_mem_merkleTreeStore (hlen : ∀ l r, (hash l r).length = 32) :
    ∀ h ∈ merkleTreeStore hash leaves, h.length = 32 := by
  refine MerkleTree.forall_mem_store _ (fun l r => ?_) _ _
  rw [MerkleTree.paddedParent]
  split_ifs
  · rfl
  · exact hlen _ _
  · exact hlen _ _

theorem encodable_siblingLeaf (hleaves : ∀ l ∈ leaves, l.length = 32)
    (hinner : ∀ h ∈ internalNodes, h.length = 32) {k o : ℕ} (ho : o < 2 ^ 53) :
    (siblingLeaf leaves internalNodes registeredIndices k
      (MerkleTree.realCount leaves.length k) o).Encodable := by
  unfold siblingLeaf
  split_ifs with hreal
  · exact ⟨ho, by simp, by simp⟩
  cases hnode : getNode leaves internalNodes k o with
  | some h =>
    refine ⟨ho, fun _ => ?_, by simp⟩
    rw [getNode] at hnode
    split_ifs at hnode
    · exact hleaves h (List.mem_of_getElem? hnode)
    · exact hinner h (List.mem_of_getElem? hnode)
  | none =>
    -- The leaves themselves are all there.
    have hk : k ≠ 0 := by
      rintro rfl
      rw [getNode, if_pos rfl, List.getElem?_eq_none_iff] at hnode
      exact hreal hnode
    exact ⟨ho, by simp, by simp [hk]⟩

theorem mem_pathOffsets_le {keys : List ℕ} {n k o : ℕ} (hkeys : ∀ r ∈ keys, r < n)
    (ho : o ∈ pathOffsets keys k) : o ≤ n := by
  rcases mem_pathOffsets.1 ho with ⟨r, hr, rfl⟩ | ⟨-, hmem⟩
  · have hlt := hkeys r hr
    have hdiv : r / 2 ^ k ≤ r := Nat.div_le_self _ _
    rcases Nat.even_or_odd (r / 2 ^ k) with he | hodd
    · rw [Nat.xor_one_of_even he]
      omega
    · rw [Nat.xor_one_of_odd hodd]
      omega
  · exact (hkeys o hmem).le

/-- What the builder builds over 32-byte hashes is encoded without loss. -/
theorem encodable_of_build (hleaves : ∀ l ∈ leaves, l.length = 32) (hn : leaves.length < 2 ^ 52)
    (hinner : 2 ≤ leaves.length → ∀ h ∈ internalNodes, h.length = 32) {order : MapOrder}
    {blockHeight : ℕ} (hheight : blockHeight < 2 ^ 53) {s : STUMP}
    (h : build leaves internalNodes registeredIndices order blockHeight = some s) :
    s.Encodable := by
  obtain rfl | ⟨htwo, rfl⟩ := build_cases h
  · exact ⟨hheight, by simp, rfl, by simp, by simp⟩
  have hle : ∀ k, ∀ o ∈ pathOffsets registeredIndices.keys k, o ≤ leaves.length :=
    fun k o ho => mem_pathOffsets_le registeredIndices.lt ho
  refine ⟨hheight, ?_, by simp, ?_, ?_⟩
  · have hclog : Nat.clog 2 leaves.length ≤ 52 := Nat.clog_le_of_le_pow hn.le
    exact hclog.trans_lt (by decide)
  · intro level hlevel
    obtain ⟨k, -, rfl⟩ := List.mem_map.1 hlevel
    have hcard := Finset.card_le_card (s := pathOffsets registeredIndices.keys k)
      (t := Finset.range (leaves.length + 1))
      (fun o ho => Finset.mem_range.2 (Nat.lt_succ_of_le (hle k o ho)))
    rw [Finset.card_range] at hcard
    simp only [levelOf, List.length_map, Finset.length_sort]
    omega
  · intro level hlevel leaf hleaf
    obtain ⟨k, -, rfl⟩ := List.mem_map.1 hlevel
    obtain ⟨o, ho, rfl⟩ := List.mem_map.1 hleaf
    have := hle k o ((Finset.mem_sort _).1 ho)
    exact encodable_siblingLeaf hleaves (hinner htwo) (by omega)

end

end Stump

end MerkleService
