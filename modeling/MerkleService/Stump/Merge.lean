import MerkleService.Stump.Proof

/-!
# Merging STUMPs

`MergeSTUMPs` (`internal/stump/builder.go`) merges STUMPs of one subtree level by level: of the
leaves with the same offset it keeps one, preferably one that is flagged as a txid.  A leaf can be
a plain sibling in one STUMP and a registered txid in another, and this is all in which the leaves
with the same offset differ (`siblingLeaf_congr`).

* `mergeSTUMPs` : the code; the map of a level is ranged over in an arbitrary order.
* `merged_foldl` : what the map of a level holds.
* `mergeLevel_eq` : a merged level is the level that `Build` builds for the union.
* `mergeSTUMPs_build` : **merging is building for the union**, and therefore does not depend on the
  order, the grouping or the repetition of the STUMPs.
-/

namespace MerkleService

namespace Stump

/-! ### The code -/

/-- The order in which the map of each level is ranged over. -/
structure MergeOrder where
  range : ℕ → List Leaf → List Leaf
  perm : ∀ level leaves, (range level leaves).Perm leaves

/-- The order in which the leaves were inserted. -/
def MergeOrder.insertion : MergeOrder := ⟨fun _ leaves => leaves, fun _ leaves => .refl leaves⟩

/-- The body of the loop over the leaves of a level.  The map `seen` is the list of its values,
whose offsets are the keys. -/
def mergeLeaf (seen : List Leaf) (leaf : Leaf) : List Leaf :=
  match seen.find? fun existing => existing.offset = leaf.offset with
  | none => seen ++ [leaf]
  | some existing =>
    if leaf.txID && !existing.txID then
      seen.map fun l => if l.offset = leaf.offset then leaf else l
    else seen

/-- The leaves of a level, none if the STUMP does not have it. -/
def STUMP.leavesAt (s : STUMP) (level : ℕ) : List Leaf :=
  match s.paths[level]? with
  | some pathLevel => pathLevel.leaves
  | none => []

/-- The body of the loop over the levels. -/
def mergeLevel (order : MergeOrder) (stumps : List STUMP) (level : ℕ) : PathLevel :=
  let seen := stumps.foldl (fun seen s => (s.leavesAt level).foldl mergeLeaf seen) []
  ⟨sortLeaves (order.range level seen)⟩

/-- `MergeSTUMPs`. -/
def mergeSTUMPs (order : MergeOrder) : List STUMP → Option STUMP
  | [] => none
  | [s] => some s
  | s :: stumps => some ⟨s.blockHeight, s.treeHeight,
      (List.range s.treeHeight).map (mergeLevel order (s :: stumps))⟩

/-! ### What the map of a level holds -/

/-- The map after the leaves `leaves`: one of the leaves of each offset, flagged as a txid if one of
them is. -/
structure Merged (leaves seen : List Leaf) : Prop where
  nodup : (seen.map Leaf.offset).Nodup
  offset : ∀ o, o ∈ seen.map Leaf.offset ↔ o ∈ leaves.map Leaf.offset
  mem : ∀ l ∈ seen, l ∈ leaves
  txID : ∀ l ∈ seen, ∀ l' ∈ leaves, l'.offset = l.offset → l'.txID = true → l.txID = true

section

variable {leaves seen : List Leaf} {leaf : Leaf}

theorem Merged.append (h : Merged leaves seen) (hnew : ∀ l ∈ seen, l.offset ≠ leaf.offset) :
    Merged (leaves ++ [leaf]) (seen ++ [leaf]) where
  nodup := by
    rw [List.map_append, List.map_singleton]
    refine List.nodup_append'.2 ⟨h.nodup, List.nodup_singleton _, ?_⟩
    simpa using hnew
  offset o := by simp only [List.map_append, List.mem_append, h.offset]
  mem l hl := by
    rcases List.mem_append.1 hl with hl | hl
    · exact List.mem_append_left _ (h.mem l hl)
    · exact List.mem_append_right _ hl
  txID l hl l' hl' hsame htrue := by
    rcases List.mem_append.1 hl with hl | hl <;> rcases List.mem_append.1 hl' with hl' | hl'
    · exact h.txID l hl l' hl' hsame htrue
    · rw [List.mem_singleton.1 hl'] at hsame
      exact absurd hsame.symm (hnew l hl)
    · -- An earlier leaf of the same offset would have left an entry in the map.
      rw [List.mem_singleton.1 hl] at hsame
      have hin := (h.offset l'.offset).2 (List.mem_map_of_mem hl')
      obtain ⟨x, hx, hxo⟩ := List.mem_map.1 hin
      exact absurd (hxo.trans hsame) (hnew x hx)
    · rw [List.mem_singleton.1 hl]
      rwa [List.mem_singleton.1 hl'] at htrue

theorem Merged.offset_append (h : Merged leaves seen) {existing : Leaf}
    (hexisting : existing ∈ seen) (hsame : existing.offset = leaf.offset) (o : ℕ) :
    o ∈ seen.map Leaf.offset ↔ o ∈ (leaves ++ [leaf]).map Leaf.offset := by
  rw [List.map_append, List.mem_append, ← h.offset, List.map_singleton, List.mem_singleton]
  refine ⟨Or.inl, ?_⟩
  rintro (ho | rfl)
  · exact ho
  · exact hsame ▸ List.mem_map_of_mem hexisting

theorem offset_replaced (seen : List Leaf) (leaf : Leaf) :
    (seen.map fun l => if l.offset = leaf.offset then leaf else l).map Leaf.offset =
      seen.map Leaf.offset := by
  rw [List.map_map]
  refine List.map_congr_left fun l _ => ?_
  rw [Function.comp_apply]
  split_ifs with hl
  · exact hl.symm
  · rfl

theorem Merged.replace (h : Merged leaves seen) {existing : Leaf} (hexisting : existing ∈ seen)
    (hsame : existing.offset = leaf.offset) (hflag : leaf.txID = true) :
    Merged (leaves ++ [leaf]) (seen.map fun l => if l.offset = leaf.offset then leaf else l) where
  nodup := by
    rw [offset_replaced]
    exact h.nodup
  offset o := by
    rw [offset_replaced]
    exact h.offset_append hexisting hsame o
  mem l hl := by
    obtain ⟨x, hx, rfl⟩ := List.mem_map.1 hl
    split_ifs
    · exact List.mem_append_right _ (List.mem_singleton_self _)
    · exact List.mem_append_left _ (h.mem x hx)
  txID l hl l' hl' hoffset htrue := by
    obtain ⟨x, hx, rfl⟩ := List.mem_map.1 hl
    split_ifs at hoffset ⊢ with hxo
    · exact hflag
    · rcases List.mem_append.1 hl' with hl' | hl'
      · exact h.txID x hx l' hl' hoffset htrue
      · rw [List.mem_singleton.1 hl'] at hoffset
        exact absurd hoffset.symm hxo

theorem Merged.keep (h : Merged leaves seen) {existing : Leaf} (hexisting : existing ∈ seen)
    (hsame : existing.offset = leaf.offset) (hflag : leaf.txID = true → existing.txID = true) :
    Merged (leaves ++ [leaf]) seen where
  nodup := h.nodup
  offset := h.offset_append hexisting hsame
  mem l hl := List.mem_append_left _ (h.mem l hl)
  txID l hl l' hl' hoffset htrue := by
    rcases List.mem_append.1 hl' with hl' | hl'
    · exact h.txID l hl l' hl' hoffset htrue
    · rw [List.mem_singleton.1 hl'] at hoffset htrue
      obtain rfl : l = existing :=
        List.inj_on_of_nodup_map h.nodup hl hexisting (hoffset.symm.trans hsame.symm)
      exact hflag htrue

theorem merged_mergeLeaf (h : Merged leaves seen) (leaf : Leaf) :
    Merged (leaves ++ [leaf]) (mergeLeaf seen leaf) := by
  unfold mergeLeaf
  split
  · rename_i hfind
    exact h.append (by simpa using hfind)
  · rename_i existing hfind
    have hexisting := List.mem_of_find?_eq_some hfind
    have hsame : existing.offset = leaf.offset := by simpa using List.find?_some hfind
    split_ifs with hprefer
    · rw [Bool.and_eq_true] at hprefer
      exact h.replace hexisting hsame hprefer.1
    · refine h.keep hexisting hsame fun htrue => ?_
      simpa [htrue] using hprefer

end

/-- **What the map of a level holds** after all leaves. -/
theorem merged_foldl (leaves : List Leaf) : Merged leaves (leaves.foldl mergeLeaf []) := by
  induction leaves using List.reverseRecOn with
  | nil => exact ⟨List.nodup_nil, by simp, by simp, by simp⟩
  | append_singleton leaves leaf ih =>
    rw [List.foldl_append]
    exact merged_mergeLeaf ih leaf

/-! ### Merging what was built -/

/-- The union of some sets of leaf indices. -/
def RegisteredIndices.union {n : ℕ} (parts : List (RegisteredIndices n)) : RegisteredIndices n where
  keys := (parts.flatMap RegisteredIndices.keys).dedup
  nodup := List.nodup_dedup _
  lt := by
    intro i hi
    obtain ⟨part, -, hmem⟩ := List.mem_flatMap.1 (List.mem_dedup.1 hi)
    exact part.lt i hmem

theorem RegisteredIndices.mem_union {n : ℕ} {parts : List (RegisteredIndices n)} {i : ℕ} :
    i ∈ (RegisteredIndices.union parts).keys ↔ ∃ part ∈ parts, i ∈ part.keys := by
  rw [union, List.mem_dedup, List.mem_flatMap]

section

variable {leaves internalNodes : List Bytes}

/-- The leaf at an offset depends on the registered leaves in no other way than through its own
flag. -/
theorem siblingLeaf_congr {r r' : RegisteredIndices leaves.length} {k realCount o : ℕ}
    (h : k = 0 → (o ∈ r.keys ↔ o ∈ r'.keys)) :
    siblingLeaf leaves internalNodes r k realCount o =
      siblingLeaf leaves internalNodes r' k realCount o := by
  have hflag : (k = 0 ∧ o ∈ r.keys) ↔ (k = 0 ∧ o ∈ r'.keys) := and_congr_right h
  simp only [siblingLeaf, hflag]

theorem levelOf_congr {r r' : RegisteredIndices leaves.length} (h : ∀ i, i ∈ r.keys ↔ i ∈ r'.keys)
    (k : ℕ) : levelOf leaves internalNodes r k = levelOf leaves internalNodes r' k := by
  have hoffsets : pathOffsets r.keys k = pathOffsets r'.keys k := by
    ext o
    simp only [mem_pathOffsets, h]
  rw [levelOf, levelOf, hoffsets]
  congr 1
  exact List.map_congr_left fun o _ => siblingLeaf_congr fun _ => h o

theorem pathOffsets_union (parts : List (RegisteredIndices leaves.length)) (k o : ℕ) :
    o ∈ pathOffsets (RegisteredIndices.union parts).keys k ↔
      ∃ part ∈ parts, o ∈ pathOffsets part.keys k := by
  simp only [mem_pathOffsets, RegisteredIndices.mem_union]
  constructor
  · rintro (⟨r, ⟨part, hpart, hr⟩, rfl⟩ | ⟨rfl, part, hpart, ho⟩)
    · exact ⟨part, hpart, Or.inl ⟨r, hr, rfl⟩⟩
    · exact ⟨part, hpart, Or.inr ⟨rfl, ho⟩⟩
  · rintro ⟨part, hpart, ⟨r, hr, rfl⟩ | ⟨rfl, ho⟩⟩
    · exact Or.inl ⟨r, ⟨part, hpart, hr⟩, rfl⟩
    · exact Or.inr ⟨rfl, part, hpart, ho⟩

theorem mem_leaves_levelOf {r : RegisteredIndices leaves.length} {k : ℕ} {leaf : Leaf} :
    leaf ∈ (levelOf leaves internalNodes r k).leaves ↔ ∃ o ∈ pathOffsets r.keys k,
      siblingLeaf leaves internalNodes r k (MerkleTree.realCount leaves.length k) o = leaf := by
  rw [levelOf, List.mem_map]
  simp only [Finset.mem_sort]

/-- On every level, of the leaves of the parts the ones that are kept are those of the union. -/
theorem eq_siblingLeaf_union {parts : List (RegisteredIndices leaves.length)} {k : ℕ}
    {seen : List Leaf}
    (h : Merged (parts.flatMap fun part => (levelOf leaves internalNodes part k).leaves) seen)
    {leaf : Leaf} (hleaf : leaf ∈ seen) :
    leaf = siblingLeaf leaves internalNodes (.union parts) k
      (MerkleTree.realCount leaves.length k) leaf.offset := by
  obtain ⟨part, hpart, hmem⟩ := List.mem_flatMap.1 (h.mem leaf hleaf)
  obtain ⟨o, ho, rfl⟩ := mem_leaves_levelOf.1 hmem
  rw [siblingLeaf_offset]
  refine siblingLeaf_congr ?_
  rintro rfl
  rw [RegisteredIndices.mem_union]
  constructor
  · intro hreg
    exact ⟨part, hpart, hreg⟩
  · -- some part has the leaf as a txid, so the leaf that was kept has the flag
    rintro ⟨part', hpart', hreg⟩
    have hflag : siblingLeaf leaves internalNodes part' 0
        (MerkleTree.realCount leaves.length 0) o = _ := siblingLeaf_registered internalNodes hreg
    have hin : siblingLeaf leaves internalNodes part' 0 (MerkleTree.realCount leaves.length 0) o ∈
        parts.flatMap fun part => (levelOf leaves internalNodes part 0).leaves :=
      List.mem_flatMap.2 ⟨part', hpart', mem_leaves_levelOf.2
        ⟨o, mem_pathOffsets.2 (Or.inr ⟨rfl, hreg⟩), rfl⟩⟩
    have htx := h.txID _ hleaf _ hin (by simp only [siblingLeaf_offset]) (by rw [hflag])
    simpa using mem_keys_of_txID hmem htx

theorem toFinset_offsets {parts : List (RegisteredIndices leaves.length)} {k : ℕ}
    {seen : List Leaf}
    (h : Merged (parts.flatMap fun part => (levelOf leaves internalNodes part k).leaves) seen) :
    (seen.map Leaf.offset).toFinset = pathOffsets (RegisteredIndices.union parts).keys k := by
  ext o
  rw [List.mem_toFinset, h.offset, pathOffsets_union]
  simp only [List.map_flatMap, List.mem_flatMap, List.mem_map, mem_leaves_levelOf]
  constructor
  · rintro ⟨part, hpart, leaf, ⟨o', ho', rfl⟩, hoff⟩
    rw [siblingLeaf_offset] at hoff
    exact ⟨part, hpart, hoff ▸ ho'⟩
  · rintro ⟨part, hpart, ho⟩
    exact ⟨part, hpart, _, ⟨o, ho, rfl⟩, siblingLeaf_offset o⟩

/-- Ranging over the map in whatever order and sorting gives the level of the union. -/
theorem sortLeaves_of_merged {parts : List (RegisteredIndices leaves.length)} {k : ℕ}
    {seen ranged : List Leaf}
    (h : Merged (parts.flatMap fun part => (levelOf leaves internalNodes part k).leaves) seen)
    (hperm : ranged.Perm seen) :
    sortLeaves ranged = (levelOf leaves internalNodes (.union parts) k).leaves := by
  have hoffsets := hperm.map Leaf.offset
  have hranged : ranged = (ranged.map Leaf.offset).map (siblingLeaf leaves internalNodes
      (.union parts) k (MerkleTree.realCount leaves.length k)) := by
    rw [List.map_map]
    conv_lhs => rw [← List.map_id ranged]
    exact List.map_congr_left fun leaf hleaf => eq_siblingLeaf_union h (hperm.mem_iff.1 hleaf)
  rw [hranged, sortLeaves_map siblingLeaf_offset (hoffsets.nodup_iff.2 h.nodup),
    List.toFinset_eq_of_perm _ _ hoffsets, toFinset_offsets h, levelOf]

/-- **A merged level** is the level that `Build` builds for the union. -/
theorem mergeLevel_eq (order : MergeOrder) {parts : List (RegisteredIndices leaves.length)}
    {stumps : List STUMP} {k : ℕ}
    (h : stumps.map (STUMP.leavesAt · k) =
      parts.map fun part => (levelOf leaves internalNodes part k).leaves) :
    mergeLevel order stumps k = levelOf leaves internalNodes (.union parts) k := by
  have hfold : stumps.foldl (fun seen s => (s.leavesAt k).foldl mergeLeaf seen) [] =
      (parts.flatMap fun part => (levelOf leaves internalNodes part k).leaves).foldl mergeLeaf
        [] := by
    rw [List.foldl_flatMap, ← List.foldl_map (f := (STUMP.leavesAt · k))
      (g := fun seen ls => List.foldl mergeLeaf seen ls), h, List.foldl_map]
  unfold mergeLevel
  simp only [hfold]
  rw [sortLeaves_of_merged (merged_foldl _) (order.perm k _)]

/-- `s` is what `Build` returns for some of the leaves, with some iteration order. -/
def IsBuilt (leaves internalNodes : List Bytes) (blockHeight : ℕ)
    (part : RegisteredIndices leaves.length) (s : STUMP) : Prop :=
  ∃ order, build leaves internalNodes part order blockHeight = some s

theorem build_eq_of_pos {blockHeight : ℕ} {part : RegisteredIndices leaves.length}
    (hn : 1 ≤ leaves.length) (hne : part.keys ≠ []) (order : MapOrder) :
    build leaves internalNodes part order blockHeight =
      some ⟨blockHeight, Nat.clog 2 leaves.length, (List.range (Nat.clog 2 leaves.length)).map
        (levelOf leaves internalNodes part)⟩ := by
  rcases Nat.lt_or_ge 1 leaves.length with htwo | hone
  · exact build_eq order blockHeight htwo hne
  · -- a single leaf has no levels
    have hclog : Nat.clog 2 leaves.length = 0 := Nat.clog_of_right_le_one hone 2
    rw [build, if_neg (by simp [hne, List.length_pos_iff.1 hn]), treeHeight_nextPowerOfTwo, hclog]
    rfl

theorem isBuilt_iff {blockHeight : ℕ} {part : RegisteredIndices leaves.length} {s : STUMP}
    (hn : 1 ≤ leaves.length) (hne : part.keys ≠ []) :
    IsBuilt leaves internalNodes blockHeight part s ↔
      s = ⟨blockHeight, Nat.clog 2 leaves.length, (List.range (Nat.clog 2 leaves.length)).map
        (levelOf leaves internalNodes part)⟩ := by
  constructor
  · rintro ⟨order, h⟩
    rw [build_eq_of_pos hn hne, Option.some.injEq] at h
    exact h.symm
  · rintro rfl
    exact ⟨.insertion, build_eq_of_pos hn hne _⟩

theorem leavesAt_of_isBuilt {blockHeight : ℕ} {part : RegisteredIndices leaves.length} {s : STUMP}
    (hn : 1 ≤ leaves.length) (hne : part.keys ≠ [])
    (h : IsBuilt leaves internalNodes blockHeight part s) {k : ℕ}
    (hk : k < Nat.clog 2 leaves.length) :
    s.leavesAt k = (levelOf leaves internalNodes part k).leaves := by
  rw [(isBuilt_iff hn hne).1 h, STUMP.leavesAt, getElem?_paths hk]

theorem union_ne_nil {n : ℕ} {parts : List (RegisteredIndices n)} (hparts : parts ≠ [])
    (hne : ∀ part ∈ parts, part.keys ≠ []) : (RegisteredIndices.union parts).keys ≠ [] := by
  obtain ⟨part, hpart⟩ := List.exists_mem_of_ne_nil _ hparts
  obtain ⟨i, hi⟩ := List.exists_mem_of_ne_nil _ (hne part hpart)
  exact List.ne_nil_of_mem (RegisteredIndices.mem_union.2 ⟨part, hpart, hi⟩)

/-- Merging what was built for some sets of leaves is building for their union. -/
theorem isBuilt_mergeSTUMPs {blockHeight : ℕ} (hn : 1 ≤ leaves.length) (order : MergeOrder)
    {parts : List (RegisteredIndices leaves.length)} {stumps : List STUMP} (hparts : parts ≠ [])
    (hne : ∀ part ∈ parts, part.keys ≠ [])
    (h : List.Forall₂ (IsBuilt leaves internalNodes blockHeight) parts stumps) :
    ∃ s, mergeSTUMPs order stumps = some s ∧
      IsBuilt leaves internalNodes blockHeight (.union parts) s := by
  have hunion := union_ne_nil hparts hne
  have hlevels : ∀ k < Nat.clog 2 leaves.length,
      mergeLevel order stumps k = levelOf leaves internalNodes (.union parts) k := by
    intro k hk
    refine mergeLevel_eq order ?_
    clear hparts hunion
    induction h with
    | nil => rfl
    | cons hbuilt _ ih =>
      rw [List.map_cons, List.map_cons,
        ih fun part hpart => hne part (List.mem_cons_of_mem _ hpart),
        leavesAt_of_isBuilt hn (hne _ List.mem_cons_self) hbuilt hk]
  cases h with
  | nil => exact absurd rfl hparts
  | @cons part s parts' stumps' hbuilt hrest =>
    obtain rfl := (isBuilt_iff hn (hne part List.mem_cons_self)).1 hbuilt
    cases hrest with
    | nil =>
      refine ⟨_, rfl, (isBuilt_iff hn hunion).2 ?_⟩
      rw [STUMP.mk.injEq]
      refine ⟨rfl, rfl, List.map_congr_left fun k _ => levelOf_congr (fun i => ?_) k⟩
      rw [RegisteredIndices.mem_union]
      simp
    | cons hbuilt' hrest' =>
      refine ⟨_, rfl, (isBuilt_iff hn hunion).2 ?_⟩
      rw [STUMP.mk.injEq]
      exact ⟨rfl, rfl, List.map_congr_left fun k hk => hlevels k (List.mem_range.1 hk)⟩

theorem encode_mergeSTUMPs_congr {blockHeight : ℕ} (hn : 1 ≤ leaves.length)
    {parts parts' : List (RegisteredIndices leaves.length)} {stumps stumps' : List STUMP}
    (hparts : parts ≠ []) (hne : ∀ part ∈ parts, part.keys ≠ [])
    (h : List.Forall₂ (IsBuilt leaves internalNodes blockHeight) parts stumps)
    (hparts' : parts' ≠ []) (hne' : ∀ part ∈ parts', part.keys ≠ [])
    (h' : List.Forall₂ (IsBuilt leaves internalNodes blockHeight) parts' stumps')
    (hsame : ∀ i, (∃ part ∈ parts, i ∈ part.keys) ↔ ∃ part ∈ parts', i ∈ part.keys)
    (order order' : MergeOrder) :
    encode (mergeSTUMPs order' stumps') = encode (mergeSTUMPs order stumps) := by
  obtain ⟨s, hs, hbuilt⟩ := isBuilt_mergeSTUMPs hn order hparts hne h
  obtain ⟨s', hs', hbuilt'⟩ := isBuilt_mergeSTUMPs hn order' hparts' hne' h'
  rw [isBuilt_iff hn (union_ne_nil hparts hne)] at hbuilt
  rw [isBuilt_iff hn (union_ne_nil hparts' hne')] at hbuilt'
  have hlevels : levelOf leaves internalNodes (.union parts') =
      levelOf leaves internalNodes (.union parts) := by
    funext k
    refine levelOf_congr (fun i => ?_) k
    rw [RegisteredIndices.mem_union, RegisteredIndices.mem_union, hsame]
  rw [hs, hs', hbuilt, hbuilt', hlevels]

theorem exists_mem_keys_split {n : ℕ} (parts : List (RegisteredIndices n)) (len i : ℕ) :
    (∃ part ∈ parts, i ∈ part.keys) ↔
      (∃ part ∈ parts.take len, i ∈ part.keys) ∨ ∃ part ∈ parts.drop len, i ∈ part.keys := by
  conv_lhs => rw [← List.take_append_drop len parts]
  simp only [List.mem_append, or_and_right, exists_or]

/-- STUMPs that were merged in groups are those of the unions of the groups. -/
theorem exists_unions {blockHeight : ℕ} (hn : 1 ≤ leaves.length) {groups : List (List STUMP)}
    {merged : List STUMP}
    (hmerged : List.Forall₂ (fun group s => ∃ order, mergeSTUMPs order group = some s) groups
      merged)
    (hgroups : ∀ group ∈ groups, group ≠ []) {parts : List (RegisteredIndices leaves.length)}
    (hne : ∀ part ∈ parts, part.keys ≠ [])
    (h : List.Forall₂ (IsBuilt leaves internalNodes blockHeight) parts groups.flatten) :
    ∃ unions : List (RegisteredIndices leaves.length),
      List.Forall₂ (IsBuilt leaves internalNodes blockHeight) unions merged ∧
      (∀ part ∈ unions, part.keys ≠ []) ∧
      ∀ i, (∃ part ∈ unions, i ∈ part.keys) ↔ ∃ part ∈ parts, i ∈ part.keys := by
  induction hmerged generalizing parts with
  | nil =>
    cases h
    exact ⟨[], .nil, by simp, by simp⟩
  | @cons group s groups merged hmerge _ ih =>
    -- The first parts are those of the first group.
    obtain ⟨order, hmerge⟩ := hmerge
    rw [List.flatten_cons] at h
    have htake := List.forall₂_take_append _ _ _ h
    have hdrop := List.forall₂_drop_append _ _ _ h
    have hneTake : ∀ part ∈ parts.take group.length, part.keys ≠ [] :=
      fun part hpart => hne part (List.mem_of_mem_take hpart)
    obtain ⟨unions, hbuilt, hneUnions, hunions⟩ := ih
      (fun group' hgroup' => hgroups group' (List.mem_cons_of_mem _ hgroup'))
      (fun part hpart => hne part (List.mem_of_mem_drop hpart)) hdrop
    have htakeNe : parts.take group.length ≠ [] := by
      intro hnil
      rw [hnil] at htake
      cases htake
      exact hgroups [] List.mem_cons_self rfl
    obtain ⟨s', hs', hbuilt'⟩ := isBuilt_mergeSTUMPs hn order htakeNe hneTake htake
    rw [hmerge, Option.some.injEq] at hs'
    subst hs'
    refine ⟨.union (parts.take group.length) :: unions, .cons hbuilt' hbuilt, ?_, ?_⟩
    · intro part hpart
      rcases List.mem_cons.1 hpart with rfl | hpart
      · exact union_ne_nil htakeNe hneTake
      · exact hneUnions part hpart
    · intro i
      rw [exists_mem_keys_split parts group.length i, ← hunions]
      simp only [List.mem_cons, exists_eq_or_imp, RegisteredIndices.mem_union]

/-- **Merging is building for the union.**  For at least one leaf and STUMPs that were built for
non-empty sets of leaves, `MergeSTUMPs` encodes to what `Build` encodes to for the union of the
sets; so STUMPs of other sets with the same union are merged to the same bytes, and so are STUMPs
that were merged in groups before. -/
theorem mergeSTUMPs_build {blockHeight : ℕ} (hn : 1 ≤ leaves.length)
    {parts : List (RegisteredIndices leaves.length)} {stumps : List STUMP} (hparts : parts ≠ [])
    (hne : ∀ part ∈ parts, part.keys ≠ [])
    (h : List.Forall₂ (IsBuilt leaves internalNodes blockHeight) parts stumps)
    (order : MergeOrder) :
    (∀ mapOrder, encode (mergeSTUMPs order stumps) =
      encode (build leaves internalNodes (.union parts) mapOrder blockHeight)) ∧
    (∀ (parts' : List (RegisteredIndices leaves.length)) (stumps' : List STUMP)
      (order' : MergeOrder), parts' ≠ [] → (∀ part ∈ parts', part.keys ≠ []) →
      List.Forall₂ (IsBuilt leaves internalNodes blockHeight) parts' stumps' →
      (∀ i, (∃ part ∈ parts, i ∈ part.keys) ↔ ∃ part ∈ parts', i ∈ part.keys) →
      encode (mergeSTUMPs order' stumps') = encode (mergeSTUMPs order stumps)) ∧
    ∀ (groups : List (List STUMP)) (merged : List STUMP) (order' : MergeOrder),
      groups.flatten = stumps → (∀ group ∈ groups, group ≠ []) →
      List.Forall₂ (fun group s => ∃ order'', mergeSTUMPs order'' group = some s) groups merged →
      encode (mergeSTUMPs order' merged) = encode (mergeSTUMPs order stumps) := by
  refine ⟨?_, ?_, ?_⟩
  · intro mapOrder
    obtain ⟨s, hs, hbuilt⟩ := isBuilt_mergeSTUMPs hn order hparts hne h
    have hunion := union_ne_nil hparts hne
    rw [hs, build_eq_of_pos hn hunion, (isBuilt_iff hn hunion).1 hbuilt]
  · intro parts' stumps' order' hparts' hne' h' hsame
    exact encode_mergeSTUMPs_congr hn hparts hne h hparts' hne' h' hsame order order'
  · intro groups merged order' hflatten hgroups hmerged
    rw [← hflatten] at h
    obtain ⟨unions, hbuilt, hneUnions, hunions⟩ := exists_unions hn hmerged hgroups hne h
    have hunionsNe : unions ≠ [] := by
      rintro rfl
      obtain ⟨i, hi⟩ := List.exists_mem_of_ne_nil _ (union_ne_nil hparts hne)
      exact absurd ((hunions i).2 (RegisteredIndices.mem_union.1 hi)) (by simp)
    rw [← hflatten]
    exact encode_mergeSTUMPs_congr hn hparts hne h hunionsNe hneUnions hbuilt
      (fun i => (hunions i).symm) order order'

end

/-- The neighbours 0 and 1 of three leaves: each is a txid in one STUMP and a sibling in the
other. -/
theorem mergeSTUMPs_build_two :
    let leaves : List Bytes := [List.replicate 32 1, List.replicate 32 2, List.replicate 32 3]
    let internalNodes : List Bytes :=
      [List.replicate 32 4, List.replicate 32 5, List.replicate 32 6]
    let left : RegisteredIndices leaves.length := ⟨[0], by decide, by decide⟩
    let right : RegisteredIndices leaves.length := ⟨[1], by decide, by decide⟩
    ∃ s s', build leaves internalNodes left .insertion 7 = some s ∧
      build leaves internalNodes right .insertion 7 = some s' ∧
      encode (mergeSTUMPs .insertion [s, s']) =
        encode (build leaves internalNodes (.union [left, right]) .insertion 7) := by
  intro leaves internalNodes left right
  have hleft := @build_eq_of_pos leaves internalNodes 7 left (by decide) (by decide) .insertion
  have hright := @build_eq_of_pos leaves internalNodes 7 right (by decide) (by decide) .insertion
  refine ⟨_, _, hleft, hright, ?_⟩
  exact (mergeSTUMPs_build (by decide) (by simp) (by simp [left, right])
    (.cons ⟨_, hleft⟩ (.cons ⟨_, hright⟩ .nil)) .insertion).1 .insertion

end Stump

end MerkleService
