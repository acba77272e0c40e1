import MerkleService.Cache.Bucket

/-!
# Words and chunks of a bucket

What the words of the map of a bucket mean, and who holds the mapped arrays: each array is either in
one slot of `chunks` or in `freeChunks`, once.

* `pack_eq`, `wordGen_pack`, `wordIdx_pack` : a word holds the generation modulo `2 ^ genSizeBits`
  and the offset.
* `Bucket.Owned` : **the arrays in the slots and the free ones are all the mapped arrays, each
  once**.
* `Bucket.openChunk_ok` : there is always a chunk to write to.
-/

namespace MerkleService

namespace Cache

/-! ### Words -/

theorem pack_eq {idx : ℕ} (h : idx < 2 ^ bucketSizeBits) (gen : ℕ) :
    pack idx gen = gen % 2 ^ genSizeBits * 2 ^ bucketSizeBits + idx := by
  have hshift : (gen <<< bucketSizeBits) % 2 ^ 64 =
      (gen % 2 ^ genSizeBits) <<< bucketSizeBits := by
    have hsplit : 2 ^ 64 = 2 ^ genSizeBits * 2 ^ bucketSizeBits := by decide
    rw [Nat.shiftLeft_eq, Nat.shiftLeft_eq, hsplit, Nat.mul_mod_mul_right]
  unfold pack
  rw [hshift, Nat.or_comm, ← Nat.shiftLeft_add_eq_or_of_lt h, Nat.shiftLeft_eq]

theorem wordGen_pack {idx : ℕ} (h : idx < 2 ^ bucketSizeBits) (gen : ℕ) :
    wordGen (pack idx gen) = gen % 2 ^ genSizeBits := by
  unfold wordGen
  rw [pack_eq h, Nat.shiftRight_eq_div_pow, Nat.add_comm,
    Nat.add_mul_div_right _ _ (Nat.two_pow_pos _), Nat.div_eq_of_lt h, Nat.zero_add]

theorem wordIdx_pack {idx : ℕ} (h : idx < 2 ^ bucketSizeBits) (gen : ℕ) :
    wordIdx (pack idx gen) = idx := by
  unfold wordIdx
  rw [pack_eq h, Nat.and_two_pow_sub_one_eq_mod, Nat.add_comm, Nat.add_mul_mod_self_right,
    Nat.mod_eq_of_lt h]

namespace Bucket

theorem bGen_eq (b : Bucket) : b.bGen = b.gen % 2 ^ genSizeBits :=
  Nat.and_two_pow_sub_one_eq_mod _ _

/-! ### The arrays -/

/-- The arrays in the slots. -/
def arrays (b : Bucket) : List ℕ := b.chunks.filterMap (Option.map Slice.array)

/-- **Who holds the mapped arrays.** -/
structure Owned (b : Bucket) : Prop where
  perm : (b.arrays ++ b.freeChunks).Perm (List.range b.mem.length)
  allocated : b.allocatedChunks = b.mem.length
  le : b.mem.length ≤ b.chunks.length
  size : ∀ a ∈ b.mem, a.length = chunkSize
  slab : 0 < b.maxSlabChunks
  /-- There are fewer slots than words can tell apart. -/
  bound : b.chunks.length < 2 ^ 64

variable {b : Bucket}

theorem Owned.lt (h : b.Owned) {i : ℕ} {c : Slice} (hc : b.chunks[i]? = some (some c)) :
    c.array < b.mem.length := by
  refine List.mem_range.1 (h.perm.subset (List.mem_append_left _ ?_))
  exact List.mem_filterMap.2 ⟨some c, List.mem_of_getElem? hc, rfl⟩

theorem Owned.slot_unique (h : b.Owned) {i j : ℕ} {c c' : Slice}
    (hc : b.chunks[i]? = some (some c)) (hc' : b.chunks[j]? = some (some c'))
    (harray : c.array = c'.array) : i = j := by
  have hnodup : b.arrays.Nodup :=
    (List.nodup_append'.1 (h.perm.nodup_iff.2 List.nodup_range)).1
  rw [arrays, List.Nodup, List.pairwise_filterMap, List.pairwise_iff_getElem] at hnodup
  obtain ⟨hi, hci⟩ := List.getElem?_eq_some_iff.1 hc
  obtain ⟨hj, hcj⟩ := List.getElem?_eq_some_iff.1 hc'
  rcases lt_trichotomy i j with hlt | rfl | hgt
  · exact absurd harray (hnodup i j hi hj hlt _ (by rw [hci]; rfl) _ (by rw [hcj]; rfl))
  · rfl
  · exact absurd harray.symm (hnodup j i hj hi hgt _ (by rw [hcj]; rfl) _ (by rw [hci]; rfl))

theorem Owned.length_lt (h : b.Owned) {i : ℕ} (hslot : b.chunks[i]? = some none)
    (hfree : b.freeChunks = []) : b.mem.length < b.chunks.length := by
  have hlen := h.perm.length_eq
  rw [hfree, List.append_nil, List.length_range] at hlen
  refine lt_of_le_of_ne h.le fun heq => ?_
  have hall := List.filterMap_length_eq_length.1 ((hlen.trans heq : _))
  simpa using hall none (List.mem_of_getElem? hslot)

theorem calcInitialAllocChunks_pos {maxSlabChunks maxChunks : ℕ} (hslab : 0 < maxSlabChunks)
    (hmax : 0 < maxChunks) : 0 < calcInitialAllocChunks maxSlabChunks maxChunks := by
  unfold calcInitialAllocChunks minSlabChunks
  dsimp only
  split_ifs <;> omega

theorem slabChunks_pos (hslab : 0 < b.maxSlabChunks) (hmax : 0 < b.chunks.length) {remaining : ℕ}
    (hrem : 0 < remaining) : 0 < b.slabChunks remaining := by
  have hnext : 0 < b.nextAlloc := by
    unfold nextAlloc
    split_ifs
    · exact calcInitialAllocChunks_pos hslab hmax
    · omega
  have hmaxSlab : 0 < b.maxSlab := by
    unfold maxSlab
    rw [if_neg hslab.ne']
    exact hslab
  unfold slabChunks
  dsimp only
  split_ifs <;> omega

theorem slabChunks_le (b : Bucket) (remaining : ℕ) : b.slabChunks remaining ≤ remaining := by
  unfold slabChunks
  dsimp only
  split_ifs <;> omega

/-- The number of arrays that may still be mapped, and that of the next slab. -/
theorem Owned.remaining (h : b.Owned) (hlt : b.mem.length < b.chunks.length) :
    (b.chunks.length + 2 ^ 64 - b.allocatedChunks) % 2 ^ 64 = b.chunks.length - b.mem.length ∧
      0 < b.slabChunks (b.chunks.length - b.mem.length) := by
  refine ⟨?_, slabChunks_pos h.slab (Nat.zero_lt_of_lt hlt) (by omega)⟩
  have := h.bound
  rw [h.allocated]
  omega

/-- A slab is mapped: at least one array, and not more than there are slots for. -/
theorem mapSlab_ok (h : b.Owned) (hlt : b.mem.length < b.chunks.length) :
    ∃ slab next, 0 < slab ∧ b.mem.length + slab ≤ b.chunks.length ∧
      b.mapSlab none = .ok { b with
        allocatedChunks := b.allocatedChunks + slab
        nextAllocChunks := next
        mem := b.mem ++ List.replicate slab (List.replicate chunkSize 0)
        freeChunks := b.freeChunks ++ List.range' b.mem.length slab } := by
  obtain ⟨hrem, hpos⟩ := h.remaining hlt
  have hle := b.slabChunks_le (b.chunks.length - b.mem.length)
  refine ⟨b.slabChunks (b.chunks.length - b.mem.length),
    if b.maxSlab < 2 * b.nextAlloc then b.maxSlab else 2 * b.nextAlloc, hpos, by omega, ?_⟩
  unfold mapSlab
  simp only [hrem]
  rw [if_neg (by omega), if_neg (Nat.mul_pos hpos (by decide)).ne']

theorem mapSlab_mmapErr (h : b.Owned) (hlt : b.mem.length < b.chunks.length) (err : String) :
    ∃ bytes : ℕ, b.mapSlab (some err) =
      .error ("cannot allocate " ++ toString bytes ++ " bytes via mmap: " ++ err) := by
  obtain ⟨hrem, hpos⟩ := h.remaining hlt
  refine ⟨b.slabChunks (b.chunks.length - b.mem.length) * chunkSize, ?_⟩
  unfold mapSlab
  simp only [hrem]
  rw [if_neg (by omega), if_neg (Nat.mul_pos hpos (by decide)).ne']

/-- `b'` differs from `b` only in the free arrays and in memory that has been mapped since. -/
structure Grown (b b' : Bucket) : Prop where
  chunks : b'.chunks = b.chunks
  m : b'.m = b.m
  idx : b'.idx = b.idx
  gen : b'.gen = b.gen
  maxSlabChunks : b'.maxSlabChunks = b.maxSlabChunks
  mem : ∀ (p : ℕ) (a : List UInt8), b.mem[p]? = some a → b'.mem[p]? = some a

/-- An empty slot can be filled: `getChunk` hands out an array that was free or has just been
mapped. -/
theorem getChunk_ok (h : b.Owned) {i : ℕ} (hslot : b.chunks[i]? = some none) :
    ∃ (b' : Bucket) (p : ℕ), b.getChunk none = some (.ok (b', p)) ∧ b.Grown b' ∧
      (p :: (b.arrays ++ b'.freeChunks)).Perm (List.range b'.mem.length) ∧
      b'.allocatedChunks = b'.mem.length ∧ b'.mem.length ≤ b.chunks.length ∧
      ∀ a ∈ b'.mem, a.length = chunkSize := by
  -- first there is a free array, then it is handed out
  obtain ⟨b₁, hb₁, hgrown, howned, hfree⟩ : ∃ b₁ : Bucket,
      (if b.freeChunks = [] then b.mapSlab none else .ok b) = .ok b₁ ∧ b.Grown b₁ ∧ b₁.Owned ∧
        b₁.freeChunks ≠ [] := by
    by_cases hfree : b.freeChunks = []
    · obtain ⟨slab, next, hpos, hle, hmap⟩ := mapSlab_ok h (h.length_lt hslot hfree)
      rw [if_pos hfree, hmap]
      refine ⟨_, rfl, ⟨rfl, rfl, rfl, rfl, rfl, fun p a ha => ?_⟩,
        ⟨?_, ?_, ?_, ?_, h.slab, h.bound⟩, ?_⟩
      · exact (List.getElem?_append_left (List.getElem?_eq_some_iff.1 ha).1).trans ha
      · have hperm := h.perm
        rw [hfree, List.append_nil] at hperm
        simp only [hfree, List.nil_append, List.length_append, List.length_replicate]
        rw [List.range_eq_range', List.range'_append_1.symm, Nat.zero_add, ← List.range_eq_range']
        exact hperm.append_right _
      · simp [h.allocated]
      · simpa using hle
      · intro a ha
        rcases List.mem_append.1 ha with ha | ha
        · exact h.size a ha
        · rw [List.eq_of_mem_replicate ha, List.length_replicate]
      · simp [hfree, hpos.ne']
    · exact ⟨b, if_neg hfree, ⟨rfl, rfl, rfl, rfl, rfl, fun _ _ ha => ha⟩, h, hfree⟩
  have hlast := List.getLast?_eq_some_getLast hfree
  refine ⟨{ b₁ with freeChunks := b₁.freeChunks.dropLast }, b₁.freeChunks.getLast hfree, ?_,
    ⟨hgrown.chunks, hgrown.m, hgrown.idx, hgrown.gen, hgrown.maxSlabChunks, hgrown.mem⟩, ?_,
    howned.allocated, hgrown.chunks ▸ howned.le, howned.size⟩
  · unfold getChunk
    rw [hb₁]
    simp only [hlast]
  · have hperm := howned.perm
    have harrays : b₁.arrays = b.arrays := by rw [arrays, arrays, hgrown.chunks]
    rw [harrays, ← List.dropLast_append_getLast hfree, ← List.append_assoc] at hperm
    exact (List.perm_append_singleton _ _).symm.trans hperm

/-- When memory cannot be mapped, `getChunk` fails or does not need to. -/
theorem getChunk_mmapErr (b : Bucket) (mmapErr : Option String) :
    b.getChunk mmapErr = b.getChunk none ∨ ∃ err, b.getChunk mmapErr = some (.error err) := by
  have hslab : b.mapSlab mmapErr = b.mapSlab none ∨ ∃ err, b.mapSlab mmapErr = .error err := by
    cases mmapErr with
    | none => exact Or.inl rfl
    | some e =>
      unfold mapSlab
      dsimp only
      split_ifs
      · exact Or.inl rfl
      · exact Or.inl rfl
      · exact Or.inr ⟨_, rfl⟩
  unfold getChunk
  by_cases hfree : b.freeChunks = []
  · rw [if_pos hfree, if_pos hfree]
    rcases hslab with hslab | ⟨err, hslab⟩
    · exact Or.inl (by rw [hslab])
    · exact Or.inr ⟨err, by rw [hslab]⟩
  · rw [if_neg hfree, if_neg hfree]
    exact Or.inl rfl

/-! ### The chunk to write to -/

/-- Slice `c` is ready to be written to and to be put into slot `i`. -/
structure Opened (b b' : Bucket) (i : ℕ) (c : Slice) : Prop where
  grown : b.Grown b'
  /-- It is the slice in the slot, if there is one. -/
  slot : b.chunks[i]? = some (some c) ∨ b.chunks[i]? = some none ∧ c.len = 0
  owned : Owned { b' with chunks := b.chunks.set i (some c) }

/-- **There is always a chunk to write to.** -/
theorem openChunk_ok (h : b.Owned) {i : ℕ} (hi : i < b.chunks.length) :
    ∃ (b' : Bucket) (c : Slice), b.openChunk none i = some (.ok (b', c)) ∧ b.Opened b' i c := by
  unfold openChunk
  cases hslot : b.chunks[i]? with
  | none => simp [hi.not_ge] at hslot
  | some slot =>
    cases slot with
    | some c =>
      refine ⟨b, c, rfl, ⟨rfl, rfl, rfl, rfl, rfl, fun _ _ ha => ha⟩, Or.inl hslot, ?_⟩
      obtain ⟨hlt, hget⟩ := List.getElem?_eq_some_iff.1 hslot
      rw [← hget, List.set_getElem_self]
      exact h
    | none =>
      obtain ⟨b', p, hget, hgrown, hperm, halloc, hle, hsize⟩ := getChunk_ok h hslot
      have hset : ((b.chunks.set i (some ⟨p, 0⟩)).filterMap (Option.map Slice.array)).Perm
          (p :: b.arrays) := List.filterMap_set_perm hslot rfl rfl
      refine ⟨b', ⟨p, 0⟩, by simp only [hget], hgrown, Or.inr ⟨hslot, rfl⟩, ?_, halloc, ?_, hsize,
        hgrown.maxSlabChunks ▸ h.slab, ?_⟩
      · exact (hset.append_right _).trans hperm
      · simpa using hle
      · simpa using h.bound

/-- An empty slot is filled unless the system call fails; a slot with a chunk needs no call. -/
theorem openChunk_cases (h : b.Owned) {i : ℕ} (hi : i < b.chunks.length)
    (mmapErr : Option String) :
    (∃ (b' : Bucket) (c : Slice), b.openChunk mmapErr i = some (.ok (b', c)) ∧ b.Opened b' i c) ∨
      b.chunks[i]? = some none ∧ ∃ (bytes : ℕ) (err : String), mmapErr = some err ∧
        b.openChunk mmapErr i = some (.error ("cannot allocate chunk: " ++
          ("cannot allocate " ++ toString bytes ++ " bytes via mmap: " ++ err))) := by
  obtain ⟨b', c, hopen, ho⟩ := openChunk_ok h hi
  cases hslot : b.chunks[i]? with
  | none => simp [hi.not_ge] at hslot
  | some slot =>
    unfold openChunk at hopen ⊢
    rw [hslot] at hopen ⊢
    cases slot with
    | some c' => exact Or.inl ⟨b', c, hopen, ho⟩
    | none =>
      by_cases hfree : b.freeChunks = []
      · cases mmapErr with
        | none => exact Or.inl ⟨b', c, hopen, ho⟩
        | some err =>
          obtain ⟨bytes, hmap⟩ := mapSlab_mmapErr h (h.length_lt hslot hfree) err
          refine Or.inr ⟨rfl, bytes, err, rfl, ?_⟩
          simp only [getChunk, if_pos hfree, hmap]
      · have hsame : b.getChunk mmapErr = b.getChunk none := by
          unfold getChunk
          rw [if_neg hfree, if_neg hfree]
        exact Or.inl ⟨b', c, by simpa only [hsame] using hopen, ho⟩

/-! ### Appending -/

/-- How a pair is encoded: the lengths, the key and the value. -/
def encode (k v : List UInt8) : List UInt8 := kvLenBuf k v ++ k ++ v

theorem length_encode (k v : List UInt8) : (encode k v).length = 4 + k.length + v.length := by
  simp only [encode, kvLenBuf, List.length_append, List.length_cons, List.length_nil]

theorem modify_splice_splice {mem : List (List UInt8)} (hsize : ∀ a ∈ mem, a.length = chunkSize)
    (p : ℕ) {len : ℕ} {bs cs : List UInt8} (h : len + bs.length + cs.length ≤ chunkSize) :
    (mem.modify p fun a => a.splice len bs).modify p (fun a => a.splice (len + bs.length) cs) =
      mem.modify p fun a => a.splice len (bs ++ cs) := by
  rw [List.modify_modify_eq]
  refine List.ext_getElem? fun i => ?_
  rw [List.getElem?_modify, List.getElem?_modify]
  cases ha : mem[i]? with
  | none => rfl
  | some a =>
    have hlen := hsize a (List.mem_of_getElem? ha)
    simp only [Option.map_eq_map, Option.map_some, Function.comp_apply, Option.some.injEq]
    split_ifs
    · exact List.splice_splice (hlen ▸ h)
    · rfl

/-- The bucket with a pair written to slice `c` of slot `chunkIdx`, at offset `idx`; the map has not
been cleaned yet. -/
def stored (b : Bucket) (k v : List UInt8) (h : UInt64) (c : Slice) (idx chunkIdx : ℕ) : Bucket :=
  { b with
    mem := b.mem.modify c.array fun a => a.splice c.len (encode k v)
    chunks := b.chunks.set chunkIdx (some ⟨c.array, c.len + (encode k v).length⟩)
    currentGenCount := b.currentGenCount + 1
    m := Function.update b.m h (some (pack idx b.gen))
    idx := idx + (encode k v).length }

theorem store_eq (kind : Kind) (hsize : ∀ a ∈ b.mem, a.length = chunkSize) {k v : List UInt8}
    {h : UInt64} {c : Slice} {idx chunkIdx : ℕ} {needClean : Bool}
    (hfit : c.len + (encode k v).length ≤ chunkSize) :
    b.store kind k v h c idx chunkIdx needClean =
      some (if needClean then (b.stored k v h c idx chunkIdx).cleanLockedMap kind
        else b.stored k v h c idx chunkIdx) := by
  have hbuf : (kvLenBuf k v).length = 4 := rfl
  have hlen := length_encode k v
  have hmem : ((b.mem.modify c.array fun a => a.splice c.len (kvLenBuf k v)).modify c.array
      (fun a => a.splice (c.len + 4) k)).modify c.array
        (fun a => a.splice (c.len + 4 + k.length) v) =
          b.mem.modify c.array fun a => a.splice c.len (encode k v) := by
    have hkey : c.len + 4 + k.length = c.len + (kvLenBuf k v ++ k).length := by
      rw [List.length_append, hbuf, Nat.add_assoc]
    have hfst : (b.mem.modify c.array fun a => a.splice c.len (kvLenBuf k v)).modify c.array
        (fun a => a.splice (c.len + 4) k) =
          b.mem.modify c.array fun a => a.splice c.len (kvLenBuf k v ++ k) :=
      modify_splice_splice hsize _ (by omega)
    rw [hfst, hkey, modify_splice_splice hsize _ (by omega), encode]
  unfold store append
  simp only [hbuf]
  rw [if_pos (by omega)]
  simp only [Option.bind_eq_bind, Option.bind_some]
  rw [if_pos (by omega)]
  simp only [Option.bind_some]
  rw [if_pos (by omega)]
  simp only [Option.bind_some, hmem]
  simp only [stored, hlen, Nat.add_assoc]

end Bucket

end Cache

end MerkleService
