import MerkleService.Stump.Dashboard

/-!
# What the dashboard accepts

`stumpVerifyMerkleRoot` (`internal/api/dashboard.html`) reports a match when the root that
`stumpComputeMerkleRoot` computes is the one that was typed in.  That root need not be reached from
the leaves that are flagged as txids: it is the node at offset 0 of the highest level that has one,
and a node that is given takes the place of its children.

The BRC-74 walk from a leaf looks up the sibling of its node on every level: it is given, or a
duplicate of the node, or known from the level below.  It ends at offset 0 above all levels.

* `stumpVerifyMerkleRoot` follows the code.
* `walk` : the BRC-74 walk.
* `accepts_only_proofs_iff` : **what is accepted is proved, if** the leaves flagged as txids are
  below the root, their siblings are there, and the highest given node above each of them is what
  its walk computes there.  Without this, and without a hash collision, something is accepted that
  is not proved.
-/

namespace MerkleService

namespace Stump

namespace Dashboard

/-! ### The code -/

/-- What is shown. -/
inductive Verdict where
  | noInput
  | noTxids (formatName : String)
  | noRoot (formatName : String)
  /-- `displayOrder` says that the root matched in display byte order. -/
  | valid (formatName computedRoot : String) (displayOrder : Bool)
  | invalid (formatName rootInput computedRoot reversedRoot : String)
  deriving DecidableEq, Repr

def stumpHasTxids (bump : DecodedBUMP) : Bool :=
  bump.levels.any fun level => level.leaves.any fun leaf => leaf.flag = 0x02

def stumpReverseHex (hex : String) : String := stumpBytesToHex (stumpHexToBytes hex).reverse

/-- `toLowerCase` of ASCII letters; no other character has a hexadecimal digit as its lower case. -/
def toLowerCase (s : String) : String := String.ofList (s.toList.map Char.toLower)

section

variable (sha256 : Bytes → Digest) (bump : DecodedBUMP)

/-- The verdict on the text `rootInput` that was typed in, after `trim`. -/
def stumpVerifyMerkleRoot (rootInput : String) : Verdict :=
  if rootInput = "" then .noInput
  else
    let formatName := if stumpHasTxids bump then "STUMP" else "BUMP"
    if !stumpHasTxids bump then .noTxids formatName
    else
      match truthy (stumpComputeMerkleRoot sha256 bump) with
      | none => .noRoot formatName
      | some computedRoot =>
        let inputLower := toLowerCase rootInput
        let reversedRoot := stumpReverseHex computedRoot
        if inputLower = computedRoot ∨ inputLower = reversedRoot then
          .valid formatName computedRoot (inputLower = reversedRoot ∧ inputLower ≠ computedRoot)
        else .invalid formatName rootInput computedRoot reversedRoot

/-! ### The walk -/

/-- The sibling of the node at `off` on level `k`, whose hash is `w`. -/
def sibling (k off : ℕ) (w : String) : Option String :=
  match entries bump k (off ^^^ 1) with
  | some entry => if entry.flag = 0x01 then some w else entry.hash
  | none => below sha256 (entries bump) k (off ^^^ 1)

/-- The parent of the node at `off` on level `k`, whose hash is `w`. -/
def climb (k off : ℕ) (w : String) : Option String :=
  (sibling sha256 bump k off w).map fun s =>
    if off % 2 = 0 then parentHash sha256 w s else parentHash sha256 s w

/-- The hash that the walk from a leaf has on level `k`. -/
def walkTo (leaf : DecodedLeaf) : ℕ → Option String
  | 0 => leaf.hash
  | k + 1 => (walkTo leaf k).bind fun w => climb sha256 bump k (leaf.offset / 2 ^ k) w

/-- The walk, which ends at offset 0 above all levels. -/
def walk (leaf : DecodedLeaf) : Option String :=
  if leaf.offset < 2 ^ bump.treeHeight then walkTo sha256 bump leaf bump.treeHeight else none

/-- The leaves of level 0 that are flagged as txids. -/
def txidLeaves : List DecodedLeaf :=
  ((bump.levels[0]?.map DecodedLevel.leaves).getD []).filter fun leaf => leaf.flag = 0x02

/-- Whenever a match is reported, the walk from every txid ends in the root that was typed in, in
the byte order of the match. -/
def AcceptsOnlyProofs : Prop :=
  ∀ rootInput formatName computedRoot displayOrder,
    stumpVerifyMerkleRoot sha256 bump rootInput = .valid formatName computedRoot displayOrder →
    ∀ leaf ∈ txidLeaves bump, ∃ w, walk sha256 bump leaf = some w ∧
      toLowerCase rootInput = if displayOrder then stumpReverseHex w else w

/-- The data prove a leaf: it is below the root, its siblings are there, and from the highest node
on its path that is given, the nodes are those of its walk. -/
structure Proves (leaf : DecodedLeaf) : Prop where
  lt : leaf.offset < 2 ^ bump.treeHeight
  sibling : ∀ k < bump.treeHeight,
    (entries bump k (leaf.offset / 2 ^ k ^^^ 1)).isSome = true ∨
      (below sha256 (entries bump) k (leaf.offset / 2 ^ k ^^^ 1)).isSome = true
  given : ∃ k < bump.treeHeight,
    known sha256 (entries bump) k (leaf.offset / 2 ^ k) = walkTo sha256 bump leaf k ∧
      ∀ j, k < j → entries bump j (leaf.offset / 2 ^ j) = none

/-- No level has a node at offset 0. -/
def Rootless : Prop := ∀ k ≤ bump.treeHeight, known sha256 (entries bump) k 0 = none

/-- Where a node on the path of a txid is not the one of its walk, the parents differ, too. -/
def NoCollision : Prop :=
  ∀ leaf ∈ txidLeaves bump, ∀ k w w', known sha256 (entries bump) k (leaf.offset / 2 ^ k) = some w →
    walkTo sha256 bump leaf k = some w' →
    climb sha256 bump k (leaf.offset / 2 ^ k) w = climb sha256 bump k (leaf.offset / 2 ^ k) w' →
    w = w'

end

/-! ### The code climbs like the walk -/

section

variable {sha256 : Bytes → Digest} {bump : DecodedBUMP} {k off : ℕ} {w : String}

theorem hashOf_entries (h : Decoded bump) {o : ℕ} {entry : Entry}
    (hentry : entries bump k o = some entry) (hflag : ¬ entry.flag = 0x01) :
    hashOf (some entry) = entry.hash ∧ entry.hash.isSome = true := by
  obtain ⟨level, hlevel, leaf, hleaf, -, rfl⟩ := exists_leaf_of_entries hentry
  rcases h.leaf level hlevel leaf hleaf with ⟨hone, -⟩ | ⟨-, b, hb, hhash⟩
  · exact absurd hone hflag
  · dsimp only
    rw [hhash]
    exact ⟨hashOf_encode hb, rfl⟩

theorem xor_one_xor_one (o : ℕ) : o ^^^ 1 ^^^ 1 = o := by
  rw [Nat.xor_assoc, Nat.xor_self, Nat.xor_zero]

/-- **The sibling of a known node** is the one of the walk. -/
theorem known_sibling (h : Decoded bump) (hproper : Proper (entries bump))
    (hw : known sha256 (entries bump) k off = some w) :
    known sha256 (entries bump) k (off ^^^ 1) = sibling sha256 bump k off w := by
  rw [known_eq] at hw ⊢
  rw [sibling]
  cases hentry : entries bump k (off ^^^ 1) with
  | none =>
    rw [filled_of_not_duplicate (by simp [hentry, isDuplicate]), hentry]
    rfl
  | some entry =>
    dsimp only
    split_ifs with hflag
    · have hdup : isDuplicate (entries bump k (off ^^^ 1)) = true := by
        simp [hentry, isDuplicate, hflag]
      by_cases hself : isDuplicate (entries bump k off) = true
      · -- two markers repeat the same node
        rw [filled_of_duplicates hself hdup, hproper.duplicate k _ hdup, Option.none_or] at hw
        rw [filled_of_duplicates hdup (by rwa [xor_one_xor_one]), xor_one_xor_one,
          hproper.duplicate k _ hself, Option.none_or, ← hw, xor_one_eq]
        split_ifs with hodd
        · rw [show off - 1 - (off - 1) % 2 = off - off % 2 by omega]
        · rw [show off + 1 - (off + 1) % 2 = off - off % 2 by omega]
      · rw [filled_of_not_duplicate hself] at hw
        rw [filled_of_duplicate hdup (by rwa [xor_one_xor_one]), xor_one_xor_one,
          ← Option.or_assoc, hw]
        rfl
    · obtain ⟨hhash, hsome⟩ := hashOf_entries h hentry hflag
      rw [filled_of_not_duplicate (by simp [hentry, isDuplicate, hflag]), hentry, hhash]
      obtain ⟨hash, hhash'⟩ := Option.isSome_iff_exists.1 hsome
      rw [hhash']
      rfl

/-- **One level up**: what is known from below is what the walk computes. -/
theorem below_succ (h : Decoded bump) (hproper : Proper (entries bump))
    (hw : known sha256 (entries bump) k off = some w) :
    below sha256 (entries bump) (k + 1) (off / 2) = climb sha256 bump k off w := by
  have hsib := known_sibling h hproper hw
  have hxor := xor_one_eq off
  rw [below, pairOf, climb, ← hsib]
  by_cases hodd : off % 2 = 1
  · rw [if_pos hodd] at hxor
    have hpair : 2 * (off / 2) = off ^^^ 1 ∧ 2 * (off / 2) + 1 = off := by omega
    rw [hpair.2, hpair.1, hw]
    cases known sha256 (entries bump) k (off ^^^ 1) <;> simp [hodd]
  · rw [if_neg hodd] at hxor
    have hpair : 2 * (off / 2) = off ∧ 2 * (off / 2) + 1 = off ^^^ 1 := by omega
    rw [hpair.2, hpair.1, hw]
    cases known sha256 (entries bump) k (off ^^^ 1) <;> simp [show off % 2 = 0 by omega]

theorem isSome_sibling (h : Decoded bump) (w : String)
    (hsib : (entries bump k (off ^^^ 1)).isSome = true ∨
      (below sha256 (entries bump) k (off ^^^ 1)).isSome = true) :
    (sibling sha256 bump k off w).isSome = true := by
  rw [sibling]
  cases hentry : entries bump k (off ^^^ 1) with
  | none =>
    rw [hentry] at hsib
    exact hsib.resolve_left (by simp)
  | some entry =>
    dsimp only
    split_ifs with hflag
    · rfl
    · exact (hashOf_entries h hentry hflag).2

theorem isSome_of_sibling (hsib : (sibling sha256 bump k off w).isSome = true) :
    (entries bump k (off ^^^ 1)).isSome = true ∨
      (below sha256 (entries bump) k (off ^^^ 1)).isSome = true := by
  rw [sibling] at hsib
  cases hentry : entries bump k (off ^^^ 1) with
  | none =>
    rw [hentry] at hsib
    exact .inr hsib
  | some entry => exact .inl rfl

theorem isSome_climb : (climb sha256 bump k off w).isSome = (sibling sha256 bump k off w).isSome :=
  Option.isSome_map

end

/-! ### The verdict -/

section

variable {sha256 : Bytes → Digest} {bump : DecodedBUMP}

theorem root_of_valid {rootInput formatName computedRoot : String} {displayOrder : Bool}
    (h : stumpVerifyMerkleRoot sha256 bump rootInput =
      .valid formatName computedRoot displayOrder) :
    stumpComputeMerkleRoot sha256 bump = some computedRoot ∧ toLowerCase rootInput =
      if displayOrder then stumpReverseHex computedRoot else computedRoot := by
  unfold stumpVerifyMerkleRoot at h
  by_cases hinput : rootInput = ""
  · rw [if_pos hinput] at h
    cases h
  rw [if_neg hinput] at h
  cases htxids : stumpHasTxids bump with
  | false => simp [htxids] at h
  | true =>
    simp only [htxids, Bool.not_true, Bool.false_eq_true, ↓reduceIte] at h
    cases hroot : truthy (stumpComputeMerkleRoot sha256 bump) with
    | none =>
      rw [hroot] at h
      cases h
    | some root =>
      rw [hroot] at h
      dsimp only at h
      split_ifs at h with hmatch
      obtain ⟨-, rfl, rfl⟩ := Verdict.valid.inj h
      refine ⟨(Option.filter_eq_some_iff.1 hroot).1, ?_⟩
      split_ifs with hdisplay
      · exact (of_decide_eq_true hdisplay).1
      · rcases hmatch with hmatch | hmatch
        · exact hmatch
        · by_contra hne
          exact hdisplay (decide_eq_true ⟨hmatch, hne⟩)

/-- The text is the hash of a node. -/
def IsHash (s : String) : Prop := ∃ b : Bytes, b.length = 32 ∧ s = Hex.encode b

theorem toLowerCase_of_isHash {s : String} (h : IsHash s) : toLowerCase s = s := by
  obtain ⟨b, -, rfl⟩ := h
  rw [toLowerCase, Hex.map_toLower_encode, String.ofList_toList]

theorem isHash_parentHash (left right : String) : IsHash (parentHash sha256 left right) :=
  ⟨_, (sha256 _).2, stumpBytesToHex_eq _⟩

theorem isHash_of_hashOf (h : Decoded bump) {k o : ℕ} {s : String}
    (hs : hashOf (entries bump k o) = some s) : IsHash s := by
  obtain ⟨hbind, -⟩ := Option.filter_eq_some_iff.1 hs
  obtain ⟨entry, hentry, hhash⟩ := Option.bind_eq_some_iff.1 hbind
  obtain ⟨level, hlevel, leaf, hleaf, -, rfl⟩ := exists_leaf_of_entries hentry
  rcases h.leaf level hlevel leaf hleaf with ⟨-, hnone⟩ | ⟨-, b, hb, hsome⟩
  · rw [hnone] at hhash
    cases hhash
  · exact ⟨b, hb, Option.some.inj (hhash.symm.trans hsome)⟩

theorem isHash_below {k o : ℕ} {s : String} (hs : below sha256 (entries bump) k o = some s) :
    IsHash s := by
  cases k with
  | zero => cases hs
  | succ k =>
    obtain ⟨left, -, hs⟩ := Option.bind_eq_some_iff.1 hs
    obtain ⟨right, -, rfl⟩ := Option.map_eq_some_iff.1 hs
    exact isHash_parentHash left right

theorem isHash_of_or (h : Decoded bump) {k o : ℕ} {s : String} {computed : Option String}
    (hs : (hashOf (entries bump k o)).or computed = some s)
    (hcomputed : computed = some s → IsHash s) : IsHash s := by
  rcases Option.or_eq_some_iff.1 hs with hs | ⟨-, hs⟩
  · exact isHash_of_hashOf h hs
  · exact hcomputed hs

theorem isHash_of_below_or {k o o' : ℕ} {s : String}
    (hs : (below sha256 (entries bump) k o).or (below sha256 (entries bump) k o') = some s) :
    IsHash s := by
  rcases Option.or_eq_some_iff.1 hs with hs | ⟨-, hs⟩
  · exact isHash_below hs
  · exact isHash_below hs

theorem isHash_known (h : Decoded bump) {k o : ℕ} {s : String}
    (hs : known sha256 (entries bump) k o = some s) : IsHash s := by
  rw [known_eq, filled] at hs
  split_ifs at hs
  · exact isHash_of_or h hs isHash_of_below_or
  · exact isHash_of_or h hs isHash_of_below_or
  · exact isHash_of_or h hs isHash_below

theorem verify_computedRoot {root : String} (htxids : stumpHasTxids bump = true)
    (hroot : stumpComputeMerkleRoot sha256 bump = some root) (hhash : IsHash root) :
    stumpVerifyMerkleRoot sha256 bump root = .valid "STUMP" root false := by
  have hlower := toLowerCase_of_isHash hhash
  have hne : root ≠ "" := by
    obtain ⟨b, hb, rfl⟩ := hhash
    intro hnil
    have hb' : b = [] := Hex.encode_injective hnil
    rw [hb'] at hb
    cases hb
  have htruthy : truthy (some root) = some root := truthy_eq (by simpa using hne)
  simp [stumpVerifyMerkleRoot, hne, htxids, hroot, htruthy, hlower]

end

/-! ### The result -/

section

variable {sha256 : Bytes → Digest} {bump : DecodedBUMP} {leaf : DecodedLeaf}

theorem mem_txidLeaves (h : Decoded bump) (hleaf : leaf ∈ txidLeaves bump) :
    ∃ level, bump.levels[0]? = some level ∧ leaf ∈ level.leaves ∧ leaf.flag = 0x02 ∧
      leaf.hash.isSome = true := by
  obtain ⟨hmem, hflag⟩ := List.mem_filter.1 hleaf
  cases hlevel : bump.levels[0]? with
  | none =>
    rw [hlevel] at hmem
    cases hmem
  | some level =>
    rw [hlevel] at hmem
    have hflag' : leaf.flag = 0x02 := of_decide_eq_true hflag
    refine ⟨level, rfl, hmem, hflag', ?_⟩
    rcases h.leaf level (List.mem_of_getElem? hlevel) leaf hmem with ⟨hone, -⟩ | ⟨-, b, -, hhash⟩
    · rw [hone] at hflag'
      cases hflag'
    · rw [hhash]
      rfl

theorem div_pow_div_two (o k : ℕ) : o / 2 ^ k / 2 = o / 2 ^ (k + 1) := by
  rw [Nat.div_div_eq_div_mul, pow_succ]

theorem known_of_none {k o : ℕ} (h : entries bump k o = none) :
    known sha256 (entries bump) k o = below sha256 (entries bump) k o := by
  rw [known_eq]
  simp [filled, h, isDuplicate, hashOf, truthy]

theorem isSome_walkTo (h : Decoded bump) (hhash : leaf.hash.isSome = true) {n : ℕ}
    (hsib : ∀ k < n, (entries bump k (leaf.offset / 2 ^ k ^^^ 1)).isSome = true ∨
      (below sha256 (entries bump) k (leaf.offset / 2 ^ k ^^^ 1)).isSome = true) :
    (walkTo sha256 bump leaf n).isSome = true := by
  induction n with
  | zero => exact hhash
  | succ n ih =>
    obtain ⟨w, hw⟩ := Option.isSome_iff_exists.1 (ih fun k hk => hsib k (by omega))
    rw [walkTo, hw, Option.bind_some, isSome_climb]
    exact isSome_sibling h w (hsib n (by omega))

theorem isSome_walkTo_of_le {m n : ℕ} (hmn : m ≤ n)
    (h : (walkTo sha256 bump leaf n).isSome = true) :
    (walkTo sha256 bump leaf m).isSome = true := by
  induction n, hmn using Nat.le_induction with
  | base => exact h
  | succ n _ ih =>
    obtain ⟨s, hs⟩ := Option.isSome_iff_exists.1 h
    obtain ⟨w, hw, -⟩ := Option.bind_eq_some_iff.1 hs
    exact ih (by rw [hw]; rfl)

/-- **From the highest given node on**, the known nodes are those of the walk. -/
theorem known_eq_walkTo (h : Decoded bump) (hproper : Proper (entries bump)) {k n : ℕ}
    (hkn : k ≤ n)
    (hk : known sha256 (entries bump) k (leaf.offset / 2 ^ k) = walkTo sha256 bump leaf k)
    (hnone : ∀ j, k < j → entries bump j (leaf.offset / 2 ^ j) = none)
    (hsome : (walkTo sha256 bump leaf n).isSome = true) :
    known sha256 (entries bump) n (leaf.offset / 2 ^ n) = walkTo sha256 bump leaf n := by
  induction n, hkn using Nat.le_induction with
  | base => exact hk
  | succ n hkn ih =>
    obtain ⟨w, hw⟩ := Option.isSome_iff_exists.1 (isSome_walkTo_of_le (Nat.le_succ n) hsome)
    have hknown := ih (by rw [hw]; rfl)
    rw [known_of_none (hnone (n + 1) (by omega)), ← div_pow_div_two,
      below_succ h hproper (hknown.trans hw), walkTo, hw, Option.bind_some]

theorem acceptsOnlyProofs (h : Decoded bump)
    (hlt : ∀ level ∈ bump.levels, ∀ leaf ∈ level.leaves, leaf.offset < 2 ^ 31)
    (hproves : ∀ leaf ∈ txidLeaves bump, Proves sha256 bump leaf) :
    AcceptsOnlyProofs sha256 bump := by
  intro rootInput formatName computedRoot displayOrder hvalid leaf hleaf
  obtain ⟨hroot, hinput⟩ := root_of_valid hvalid
  obtain ⟨-, -, -, -, hhash⟩ := mem_txidLeaves h hleaf
  obtain ⟨hoff, hsib, k, hk, hknown, hnone⟩ := hproves leaf hleaf
  have hsome := isSome_walkTo h hhash hsib
  obtain ⟨w, hw⟩ := Option.isSome_iff_exists.1 hsome
  have htop := known_eq_walkTo h (proper_entries h hlt) hk.le hknown hnone hsome
  rw [Nat.div_eq_of_lt hoff, known_treeHeight sha256 h, hw] at htop
  have hcomputed := stumpComputeMerkleRoot_of_below h hlt htop
  obtain rfl := Option.some.inj (hroot.symm.trans hcomputed)
  exact ⟨computedRoot, by rw [walk, if_pos hoff, hw], hinput⟩

theorem isSome_known_succ (h : Decoded bump) (hproper : Proper (entries bump)) {k off : ℕ}
    (hknown : (known sha256 (entries bump) k off).isSome = true)
    (hsib : (entries bump k (off ^^^ 1)).isSome = true ∨
      (below sha256 (entries bump) k (off ^^^ 1)).isSome = true) :
    (known sha256 (entries bump) (k + 1) (off / 2)).isSome = true := by
  obtain ⟨w, hw⟩ := Option.isSome_iff_exists.1 hknown
  have hbelow : (below sha256 (entries bump) (k + 1) (off / 2)).isSome = true := by
    rw [below_succ h hproper hw, isSome_climb]
    exact isSome_sibling h w hsib
  rw [known_eq, filled]
  split_ifs with hdup hdups
  · -- both are markers: one of the two nodes of the pair is this one
    have hpair : off / 2 = off / 2 - off / 2 % 2 ∨ off / 2 = off / 2 - off / 2 % 2 + 1 := by omega
    rw [Option.isSome_or, Option.isSome_or, Bool.or_eq_true, Bool.or_eq_true]
    rcases hpair with hpair | hpair
    · exact .inr (.inr (by rwa [← hpair]))
    · exact .inr (.inl (by rwa [← hpair]))
  · simp [hbelow]
  · simp [hbelow]

theorem exists_known_of_root (h : Decoded bump)
    (hlt : ∀ level ∈ bump.levels, ∀ leaf ∈ level.leaves, leaf.offset < 2 ^ 31) {root : String}
    (hroot : stumpComputeMerkleRoot sha256 bump = some root) :
    ∃ k ≤ bump.treeHeight, known sha256 (entries bump) k 0 = some root := by
  rw [stumpComputeMerkleRoot_eq sha256 h hlt] at hroot
  obtain ⟨k, hk, hknown⟩ := List.exists_of_findSome?_eq_some hroot
  exact ⟨k, by simpa [Nat.lt_succ_iff] using hk, hknown⟩

theorem entries_of_treeHeight_le (h : Decoded bump) {k : ℕ} (hk : bump.treeHeight ≤ k) (o : ℕ) :
    entries bump k o = none := by
  have hnone : bump.levels[k]? = none := by rwa [List.getElem?_eq_none_iff, h.length]
  rw [entries, hnone]
  rfl

theorem exists_highest_given (h : Decoded bump) (hpos : 0 < bump.treeHeight) (o : ℕ) :
    ∃ k < bump.treeHeight, ∀ j, k < j → entries bump j (o / 2 ^ j) = none := by
  refine ⟨Nat.findGreatest (fun k => (entries bump k (o / 2 ^ k)).isSome = true)
    (bump.treeHeight - 1), ?_, ?_⟩
  · have hle := Nat.findGreatest_le (P := fun k => (entries bump k (o / 2 ^ k)).isSome = true)
      (bump.treeHeight - 1)
    omega
  · intro j hj
    by_cases hjh : bump.treeHeight ≤ j
    · exact entries_of_treeHeight_le h hjh _
    · rw [← Option.not_isSome_iff_eq_none]
      exact Nat.findGreatest_is_greatest hj (by omega)

/-- Without a collision, the known nodes are those of the walk if the last one is. -/
theorem known_eq_walkTo_of_top (h : Decoded bump) (hproper : Proper (entries bump))
    (hcoll : NoCollision sha256 bump) (hleaf : leaf ∈ txidLeaves bump) {k n : ℕ} (hkn : k ≤ n)
    (hnone : ∀ j, k < j → entries bump j (leaf.offset / 2 ^ j) = none)
    (hknown : ∀ j ≤ n, (known sha256 (entries bump) j (leaf.offset / 2 ^ j)).isSome = true)
    (hsome : (walkTo sha256 bump leaf n).isSome = true)
    (htop : known sha256 (entries bump) n (leaf.offset / 2 ^ n) = walkTo sha256 bump leaf n) :
    known sha256 (entries bump) k (leaf.offset / 2 ^ k) = walkTo sha256 bump leaf k := by
  induction n, hkn using Nat.le_induction with
  | base => exact htop
  | succ n hkn ih =>
    have hsome' := isSome_walkTo_of_le (Nat.le_succ n) hsome
    refine ih (fun j hj => hknown j (by omega)) hsome' ?_
    obtain ⟨w, hw⟩ := Option.isSome_iff_exists.1 (hknown n (by omega))
    obtain ⟨w', hw'⟩ := Option.isSome_iff_exists.1 hsome'
    rw [known_of_none (hnone (n + 1) (by omega)), ← div_pow_div_two, below_succ h hproper hw,
      walkTo, hw', Option.bind_some] at htop
    rw [hw, hw', hcoll leaf hleaf n w w' hw hw' htop]

theorem stumpHasTxids_of_mem (h : Decoded bump) (hleaf : leaf ∈ txidLeaves bump) :
    stumpHasTxids bump = true := by
  obtain ⟨level, hlevel, hmem, hflag, -⟩ := mem_txidLeaves h hleaf
  rw [stumpHasTxids, List.any_eq_true]
  exact ⟨level, List.mem_of_getElem? hlevel, List.any_eq_true.2 ⟨leaf, hmem, by simp [hflag]⟩⟩

theorem treeHeight_pos_of_mem (h : Decoded bump) (hleaf : leaf ∈ txidLeaves bump) :
    0 < bump.treeHeight := by
  obtain ⟨level, hlevel, -⟩ := mem_txidLeaves h hleaf
  rw [← h.length]
  exact (List.getElem?_eq_some_iff.1 hlevel).1

theorem isSome_entries_of_mem (h : Decoded bump) (hleaf : leaf ∈ txidLeaves bump) :
    (entries bump 0 leaf.offset).isSome = true := by
  obtain ⟨level, hlevel, hmem, -⟩ := mem_txidLeaves h hleaf
  rw [entries, hlevel, Option.map_some, Option.getD_some, entryAt, Option.isSome_map,
    List.find?_isSome]
  exact ⟨leaf, List.mem_reverse.2 hmem, by simp⟩

theorem isSome_sibling_of_walkTo {n : ℕ} (hsome : (walkTo sha256 bump leaf n).isSome = true)
    {k : ℕ} (hk : k < n) :
    (entries bump k (leaf.offset / 2 ^ k ^^^ 1)).isSome = true ∨
      (below sha256 (entries bump) k (leaf.offset / 2 ^ k ^^^ 1)).isSome = true := by
  obtain ⟨s, hs⟩ := Option.isSome_iff_exists.1 (isSome_walkTo_of_le (Nat.succ_le_of_lt hk) hsome)
  obtain ⟨w, -, hclimb⟩ := Option.bind_eq_some_iff.1 hs
  refine isSome_of_sibling (w := w) ?_
  rw [← isSome_climb, hclimb]
  rfl

/-- A txid that is not overwritten is known, and with its siblings so is everything above it. -/
theorem isSome_known_of_siblings (h : Decoded bump) (hproper : Proper (entries bump))
    (hleaf : leaf ∈ txidLeaves bump) (hdup : isDuplicate (entries bump 0 leaf.offset) = false)
    {n : ℕ}
    (hsib : ∀ k < n, (entries bump k (leaf.offset / 2 ^ k ^^^ 1)).isSome = true ∨
      (below sha256 (entries bump) k (leaf.offset / 2 ^ k ^^^ 1)).isSome = true) :
    ∀ j ≤ n, (known sha256 (entries bump) j (leaf.offset / 2 ^ j)).isSome = true := by
  intro j hj
  induction j with
  | zero =>
    obtain ⟨entry, hentry⟩ := Option.isSome_iff_exists.1 (isSome_entries_of_mem h hleaf)
    have hflag : ¬ entry.flag = 0x01 := by simpa [hentry, isDuplicate] using hdup
    obtain ⟨hhash, hsome⟩ := hashOf_entries h hentry hflag
    rw [pow_zero, Nat.div_one, known_eq, filled_of_not_duplicate (by simp [hdup]), hentry, hhash,
      Option.isSome_or, hsome]
    rfl
  | succ j ih =>
    rw [← div_pow_div_two]
    exact isSome_known_succ h hproper (ih (by omega)) (hsib j (by omega))

/-- If a root is computed and only proofs are accepted, the data prove all txids that are not
overwritten by a duplicate marker, unless there is a collision. -/
theorem proves_of_acceptsOnlyProofs (h : Decoded bump)
    (hlt : ∀ level ∈ bump.levels, ∀ leaf ∈ level.leaves, leaf.offset < 2 ^ 31)
    (hcoll : NoCollision sha256 bump)
    (hkept : ∀ leaf ∈ txidLeaves bump, isDuplicate (entries bump 0 leaf.offset) = false)
    (hproofs : AcceptsOnlyProofs sha256 bump) {root : String}
    (hroot : stumpComputeMerkleRoot sha256 bump = some root) (hleaf : leaf ∈ txidLeaves bump) :
    Proves sha256 bump leaf := by
  have hproper := proper_entries h hlt
  have htxids := stumpHasTxids_of_mem h hleaf
  -- the root that is computed is accepted
  obtain ⟨top, -, hknownRoot⟩ := exists_known_of_root h hlt hroot
  have hhash := isHash_known h hknownRoot
  obtain ⟨w, hwalk, heq⟩ := hproofs _ _ _ _ (verify_computedRoot htxids hroot hhash) leaf hleaf
  rw [if_neg Bool.false_ne_true, toLowerCase_of_isHash hhash] at heq
  unfold walk at hwalk
  split_ifs at hwalk with hoff
  have hsome : (walkTo sha256 bump leaf bump.treeHeight).isSome = true := by rw [hwalk]; rfl
  have hsib := fun k (hk : k < bump.treeHeight) => isSome_sibling_of_walkTo hsome hk
  have hknown := isSome_known_of_siblings h hproper hleaf (hkept leaf hleaf) hsib
  have htop : known sha256 (entries bump) bump.treeHeight (leaf.offset / 2 ^ bump.treeHeight) =
      walkTo sha256 bump leaf bump.treeHeight := by
    obtain ⟨top, htop⟩ := Option.isSome_iff_exists.1 (hknown _ le_rfl)
    have hbelow := htop
    rw [Nat.div_eq_of_lt hoff, known_treeHeight sha256 h] at hbelow
    have hcomputed := stumpComputeMerkleRoot_of_below h hlt hbelow
    rw [htop, hwalk, ← heq, ← hroot, hcomputed]
  obtain ⟨k, hk, hnone⟩ := exists_highest_given h (treeHeight_pos_of_mem h hleaf) leaf.offset
  exact ⟨hoff, hsib, k, hk,
    known_eq_walkTo_of_top h hproper hcoll hleaf hk.le hnone hknown hsome htop, hnone⟩

/-- **What the dashboard accepts.**  For all that it decodes, with offsets below `2 ^ 31`: if no
root is computed, or if the data prove every txid, then only proofs are accepted.  Conversely, if
only proofs are accepted, then one of the two is the case, unless a txid is overwritten by a
duplicate marker or two hashes on the path of a txid collide. -/
theorem accepts_only_proofs_iff {bytes : Bytes} (hdecode : stumpDecodeBUMP bytes = .ok bump)
    (hlt : ∀ level ∈ bump.levels, ∀ leaf ∈ level.leaves, leaf.offset < 2 ^ 31) :
    (Rootless sha256 bump ∨ (∀ leaf ∈ txidLeaves bump, Proves sha256 bump leaf) →
      AcceptsOnlyProofs sha256 bump) ∧
    (NoCollision sha256 bump →
      (∀ leaf ∈ txidLeaves bump, isDuplicate (entries bump 0 leaf.offset) = false) →
      AcceptsOnlyProofs sha256 bump →
      Rootless sha256 bump ∨ ∀ leaf ∈ txidLeaves bump, Proves sha256 bump leaf) := by
  have h := decoded_of_stumpDecodeBUMP hdecode
  refine ⟨?_, ?_⟩
  · rintro (hnone | hproves)
    · intro rootInput formatName computedRoot displayOrder hvalid
      obtain ⟨k, hk, hknown⟩ := exists_known_of_root h hlt (root_of_valid hvalid).1
      rw [hnone k hk] at hknown
      cases hknown
    · exact acceptsOnlyProofs h hlt hproves
  · intro hcoll hkept hproofs
    cases hroot : stumpComputeMerkleRoot sha256 bump with
    | none =>
      refine .inl fun k hk => ?_
      rw [stumpComputeMerkleRoot_eq sha256 h hlt, List.findSome?_eq_none_iff] at hroot
      exact hroot k (by simpa [Nat.lt_succ_iff] using hk)
    | some root =>
      exact .inr fun leaf hleaf => proves_of_acceptsOnlyProofs h hlt hcoll hkept hproofs hroot hleaf

end

/-- Two leaves, of which the first is flagged. -/
theorem accepts_only_proofs_two :
    let bytes : Bytes := [0, 1, 2, 0, 2] ++ List.replicate 32 1 ++ [1, 0] ++ List.replicate 32 2
    let bump : DecodedBUMP := ⟨0, 1, [⟨0, [⟨0, 0x02, some (Hex.encode (List.replicate 32 1))⟩,
      ⟨1, 0x00, some (Hex.encode (List.replicate 32 2))⟩]⟩]⟩
    stumpDecodeBUMP bytes = .ok bump ∧ AcceptsOnlyProofs sampleSha256 bump := by
  intro bytes bump
  have hdecode : stumpDecodeBUMP bytes = .ok bump := by decide
  refine ⟨hdecode, (accepts_only_proofs_iff hdecode (by decide)).1 (.inr ?_)⟩
  intro leaf hleaf
  obtain rfl : leaf = ⟨0, 0x02, some (Hex.encode (List.replicate 32 1))⟩ := by
    simpa [txidLeaves, bump] using hleaf
  refine ⟨by decide, ?_, 0, by decide, ?_, ?_⟩
  · intro k hk
    obtain rfl : k = 0 := Nat.lt_one_iff.1 hk
    exact .inl (by decide)
  · rfl
  · intro j hj
    obtain ⟨j, rfl⟩ := Nat.exists_eq_succ_of_ne_zero hj.ne'
    rfl

/-- A txid without its sibling, in a tree of height one: the dashboard computes the txid itself as
the root and accepts it, whatever SHA-256 is, while the walk fails. -/
theorem not_accepts_only_proofs :
    let bytes : Bytes := [0, 1, 1, 0, 2] ++ List.replicate 32 1
    let root := Hex.encode (List.replicate 32 1)
    let leaf : DecodedLeaf := ⟨0, 0x02, some root⟩
    ∃ bump, stumpDecodeBUMP bytes = .ok bump ∧ leaf ∈ txidLeaves bump ∧
      ∀ sha256, stumpVerifyMerkleRoot sha256 bump root = .valid "STUMP" root false ∧
        walk sha256 bump leaf = none := by
  intro bytes root leaf
  have hdecode : stumpDecodeBUMP bytes = .ok ⟨0, 1, [⟨0, [leaf]⟩]⟩ := by decide
  have hhash : IsHash root := ⟨_, by decide, rfl⟩
  refine ⟨⟨0, 1, [⟨0, [leaf]⟩]⟩, hdecode, by decide, fun sha256 => ⟨?_, ?_⟩⟩
  · refine verify_computedRoot (by decide) ?_ hhash
    rw [stumpComputeMerkleRoot_eq sha256 (decoded_of_stumpDecodeBUMP hdecode) (by decide)]
    have hone : known sha256 (entries ⟨0, 1, [⟨0, [leaf]⟩]⟩) 1 0 = none := rfl
    have hzero : known sha256 (entries ⟨0, 1, [⟨0, [leaf]⟩]⟩) 0 0 = some root := rfl
    simp [List.range_succ, hone, hzero]
  · simp [walk, walkTo, climb, sibling, entries, entryAt, below, leaf]

end Dashboard

end Stump

end MerkleService
