import MerkleService.Cache.RegistrationCache
import MerkleService.Cache.Preallocated

/-!
# The sizes of a cache

`New` of `internal/cache/improved_cache.go` divides the bytes it is given among its buckets.  The
buckets with allocation on demand leave a rest that is less than a chunk unused.  A preallocated
bucket maps all its bytes and carves them by `data = data[ChunkSize:]`, which is out of range when
such a rest is left.

* `newCache` : `New` for all types of buckets.
* `Usable` : `New` returns, every bucket has chunks that lie inside its mappings, and they are not
  more than was asked for.
* `usable_iff` : **a size is usable if and only if** the buckets are not preallocated, or too small
  to be divided, or of whole chunks.
-/

namespace MerkleService

namespace Cache

/-- `BucketType`; every other number counts as `Trimmed`. -/
inductive BucketType where
  | unallocated
  | preallocated
  | trimmed
  deriving DecidableEq

/-- A bucket of any type; `bucketUnallocated` and `bucketTrimmed` have the same `Init` and
`getChunk`. -/
inductive AnyBucket where
  | onDemand (b : Bucket)
  | preallocated (b : PreBucket)

/-- `defaultTrimRatio`. -/
def defaultTrimRatio : ℕ := 2

/-- `maxBucketBytes`. -/
def maxBucketBytes (maxBytes : ℤ) : ℕ :=
  let maxBucketBytes := maxBytes.toNat / bucketsCount
  if maxBucketBytes < chunkSize then chunkSize * 8 else maxBucketBytes

/-- The loop over the buckets, each of which is initialised by `init`; `none` is a panic. -/
def initBuckets (init : Option (Except String AnyBucket)) (context : String) :
    ℕ → Option (Except String (List AnyBucket))
  | 0 => some (.ok [])
  | n + 1 =>
    match init with
    | none => none
    | some (.error err) => some (.error (context ++ err))
    | some (.ok b) => (initBuckets init context n).map (·.map (b :: ·))

/-- `New`, when memory can be mapped. -/
def newCache (maxBytes : ℤ) (bucketType : BucketType) : Option (Except String (List AnyBucket)) :=
  if maxBytes ≤ 0 then
    some (.error ("maxBytes must be greater than 0; got " ++ toString maxBytes))
  else
    match bucketType with
    | .unallocated =>
      initBuckets (some ((Bucket.init (maxBucketBytes maxBytes)).map .onDemand))
        "error creating unallocated cache: " bucketsCount
    | .preallocated =>
      initBuckets ((PreBucket.init none (maxBucketBytes maxBytes) defaultTrimRatio).map
        (·.map .preallocated)) "error creating preallocated cache: " bucketsCount
    | .trimmed =>
      initBuckets (some ((Bucket.init (maxBucketBytes maxBytes)).map .onDemand))
        "error creating trimmed cache: " bucketsCount

theorem initBuckets_ok (b : AnyBucket) (context : String) (n : ℕ) :
    initBuckets (some (.ok b)) context n = some (.ok (List.replicate n b)) := by
  induction n with
  | zero => rfl
  | succ n ih =>
    rw [initBuckets, ih]
    rfl

theorem newCache_unallocated (maxBytes : ℤ) :
    newCache maxBytes .unallocated =
      some ((ImprovedCache.new maxBytes).map fun c =>
        List.ofFn fun i => .onDemand (c.buckets i)) := by
  unfold newCache ImprovedCache.new maxBucketBytes
  split_ifs
  · rfl
  · dsimp only
    generalize Bucket.init _ = bucket
    cases bucket with
    | error err => rfl
    | ok b => simp only [Except.map, initBuckets_ok, List.ofFn_const]

/-! ### Usable caches -/

/-- A mapping of `len` bytes is carved into `chunks` chunks, which lie inside it. -/
def Carved (len chunks : ℕ) : Prop :=
  ∃ offsets, carve 0 len = some offsets ∧ offsets.length = chunks ∧
    ∀ o ∈ offsets, o + chunkSize ≤ len

/-- The bucket has a chunk.  One that allocates on demand maps a slab when the first chunk is
needed, of not more chunks than it has slots. -/
def AnyBucket.HasChunks (maxBucketBytes : ℕ) : AnyBucket → Prop
  | .onDemand b => 0 < b.chunks.length ∧ ∃ b' p, b.getChunk none = some (.ok (b', p)) ∧
      p < b'.mem.length ∧ b'.mem.length ≤ b.chunks.length ∧
      (∀ a ∈ b'.mem, a.length = chunkSize) ∧ Carved (b'.mem.length * chunkSize) b'.mem.length
  | .preallocated b => 0 < b.chunks.length ∧ (∀ a ∈ b.mem, a.length = chunkSize) ∧
      Carved maxBucketBytes b.chunks.length

/-- The storage for chunks that a bucket uses at most. -/
def AnyBucket.storage : AnyBucket → ℕ
  | .onDemand b => b.chunks.length * chunkSize
  | .preallocated b => b.chunks.length * chunkSize

/-- `New` returns a cache; every bucket has chunks inside its mappings; and the chunks of all
buckets are within the bytes asked for, or the least that a cache has. -/
def Usable (maxBytes : ℤ) (bucketType : BucketType) : Prop :=
  ∃ buckets, newCache maxBytes bucketType = some (.ok buckets) ∧ buckets.length = bucketsCount ∧
    (∀ b ∈ buckets, b.HasChunks (maxBucketBytes maxBytes)) ∧
    ((buckets.map AnyBucket.storage).sum : ℤ) ≤ max maxBytes (bucketsCount * 8 * chunkSize)

theorem carved_mul (n : ℕ) : Carved (n * chunkSize) n := by
  refine ⟨_, carve_mul 0 n, by rw [List.length_map, List.length_range], ?_⟩
  intro o ho
  obtain ⟨i, hi, rfl⟩ := List.mem_map.1 ho
  rw [Nat.zero_add, ← Nat.succ_mul]
  exact Nat.mul_le_mul_right _ (List.mem_range.1 hi)

section

variable {maxBytes : ℤ}

theorem maxBucketBytes_ge (maxBytes : ℤ) : chunkSize ≤ maxBucketBytes maxBytes := by
  have hpos : 0 < chunkSize := by decide
  unfold maxBucketBytes
  dsimp only
  split_ifs <;> omega

theorem bucketsCount_mul_le (hpos : 0 < maxBytes) :
    ((bucketsCount * maxBucketBytes maxBytes : ℕ) : ℤ) ≤
      max maxBytes (bucketsCount * 8 * chunkSize) := by
  have hcount : bucketsCount = 32 := rfl
  have hchunk : chunkSize = 1024 := rfl
  unfold maxBucketBytes
  dsimp only
  rw [hcount, hchunk]
  split_ifs
  · exact le_max_of_le_right (by norm_num)
  · exact le_max_of_le_left (by omega)

/-- A bucket with allocation on demand has room for a chunk and not for more than its bytes. -/
theorem onDemand_init {bytes : ℕ} (hle : chunkSize ≤ bytes) (hlt : bytes < maxBucketSize) :
    ∃ b, Bucket.init bytes = .ok b ∧ AnyBucket.HasChunks bytes (.onDemand b) ∧
      b.chunks.length * chunkSize ≤ bytes := by
  have hpos : 0 < chunkSize := by decide
  have hdiv : bytes / chunkSize ≠ 0 := (Nat.div_pos hle hpos).ne'
  obtain ⟨b, hb, hslot⟩ : ∃ b, Bucket.init bytes = .ok b ∧
      b.chunks = List.replicate (bytes / chunkSize) none := by
    unfold Bucket.init
    rw [if_neg (by omega), if_neg (not_le.2 hlt)]
    dsimp only
    rw [if_neg hdiv]
    exact ⟨_, rfl, by simp [Bucket.reset, Bucket.putChunks]⟩
  have hlen : b.chunks.length = bytes / chunkSize := by rw [hslot, List.length_replicate]
  have hfirst : b.chunks[0]? = some none := by
    rw [hslot, List.getElem?_replicate, if_pos (Nat.pos_of_ne_zero hdiv)]
  obtain ⟨b', p, hget, -, hperm, -, hmem, hsize⟩ :=
    Bucket.getChunk_ok (refines_init hb).owned hfirst
  refine ⟨b, hb, ⟨?_, b', p, hget, ?_, hmem, hsize, carved_mul _⟩, ?_⟩
  · rw [hlen]
    exact Nat.pos_of_ne_zero hdiv
  · exact List.mem_range.1 (hperm.subset List.mem_cons_self)
  · rw [hlen]
    exact Nat.div_mul_le_self _ _

theorem usable_of_replicate (hpos : 0 < maxBytes) {t : BucketType} {b : AnyBucket}
    (hnew : newCache maxBytes t = some (.ok (List.replicate bucketsCount b)))
    (hb : b.HasChunks (maxBucketBytes maxBytes)) (hstorage : b.storage ≤ maxBucketBytes maxBytes) :
    Usable maxBytes t := by
  refine ⟨_, hnew, List.length_replicate, ?_, ?_⟩
  · intro b' hb'
    rwa [List.eq_of_mem_replicate hb']
  · rw [List.map_replicate, List.sum_replicate, smul_eq_mul]
    refine le_trans ?_ (bucketsCount_mul_le hpos)
    exact_mod_cast Nat.mul_le_mul_left _ hstorage

theorem usable_onDemand (hpos : 0 < maxBytes) (hsize : maxBucketBytes maxBytes < maxBucketSize)
    {t : BucketType} (ht : t ≠ .preallocated) : Usable maxBytes t := by
  obtain ⟨b, hb, hchunks, hstorage⟩ := onDemand_init (maxBucketBytes_ge maxBytes) hsize
  refine usable_of_replicate hpos ?_ hchunks hstorage
  cases t with
  | preallocated => exact absurd rfl ht
  | unallocated =>
    rw [newCache, if_neg (not_le.2 hpos), hb]
    exact initBuckets_ok _ _ _
  | trimmed =>
    rw [newCache, if_neg (not_le.2 hpos), hb]
    exact initBuckets_ok _ _ _

theorem usable_preallocated_iff (hpos : 0 < maxBytes)
    (hsize : maxBucketBytes maxBytes < maxBucketSize) :
    Usable maxBytes .preallocated ↔ chunkSize ∣ maxBucketBytes maxBytes := by
  constructor
  · rintro ⟨buckets, hnew, -, -⟩
    by_contra hdvd
    rw [newCache, if_neg (not_le.2 hpos), PreBucket.init_eq_none hdvd hsize] at hnew
    cases hnew
  · rintro ⟨n, hn⟩
    rw [Nat.mul_comm] at hn
    have hle := maxBucketBytes_ge maxBytes
    have hn' : 1 ≤ n := by
      rcases Nat.eq_zero_or_pos n with rfl | h
      · have hchunk : 0 < chunkSize := by decide
        omega
      · exact h
    obtain ⟨b, hinit, hlen, hmem⟩ := PreBucket.init_mul hn' (hn ▸ hsize) defaultTrimRatio
    refine @usable_of_replicate _ hpos _ (.preallocated b) ?_ ⟨?_, hmem, ?_⟩ ?_
    · rw [newCache, if_neg (not_le.2 hpos), hn, hinit]
      exact initBuckets_ok _ _ _
    · rw [hlen]
      exact hn'
    · rw [hn, hlen]
      exact carved_mul n
    · rw [hn, AnyBucket.storage, hlen]

end

/-- **Which sizes are usable.**  For every positive number of bytes for which the buckets stay below
`maxBucketSize`, and every type of buckets: `New` returns a cache whose buckets have chunks inside
their mappings, within the bytes asked for, if and only if the buckets are not preallocated, or have
the least size, or `ChunkSize` divides the bytes of a bucket. -/
theorem usable_iff {maxBytes : ℤ} (hpos : 0 < maxBytes)
    (hsize : maxBucketBytes maxBytes < maxBucketSize) (bucketType : BucketType) :
    Usable maxBytes bucketType ↔ bucketType ≠ .preallocated ∨
      maxBytes.toNat / bucketsCount < chunkSize ∨ chunkSize ∣ maxBytes.toNat / bucketsCount := by
  cases bucketType with
  | unallocated => exact iff_of_true (usable_onDemand hpos hsize (by decide)) (.inl (by decide))
  | trimmed => exact iff_of_true (usable_onDemand hpos hsize (by decide)) (.inl (by decide))
  | preallocated =>
    rw [usable_preallocated_iff hpos hsize]
    have hbytes : maxBucketBytes maxBytes = if maxBytes.toNat / bucketsCount < chunkSize
        then chunkSize * 8 else maxBytes.toNat / bucketsCount := rfl
    by_cases hsmall : maxBytes.toNat / bucketsCount < chunkSize
    · rw [hbytes, if_pos hsmall]
      exact iff_of_true (Nat.dvd_mul_right _ _) (.inr (.inl hsmall))
    · rw [hbytes, if_neg hsmall]
      constructor
      · exact fun h => .inr (.inr h)
      · rintro (h | h | h)
        · exact absurd rfl h
        · exact absurd h hsmall
        · exact h

/-- Buckets of one chunk each. -/
theorem usable_iff_least : Usable 32768 .preallocated ∧ Usable 1 .trimmed :=
  ⟨(usable_iff (by decide) (by decide) _).2 (.inr (.inr (by decide))),
    (usable_iff (by decide) (by decide) _).2 (.inl (by decide))⟩

/-- 32800 bytes are 1025 for each of the 32 buckets: `New` panics. -/
theorem not_usable_preallocated :
    newCache 32800 .preallocated = none ∧ ¬ Usable 32800 .preallocated := by
  have hnone : newCache 32800 .preallocated = none := by
    have hbytes : maxBucketBytes 32800 = 1025 := by decide
    rw [newCache, if_neg (by decide), hbytes, PreBucket.init_eq_none (by decide) (by decide)]
    rfl
  refine ⟨hnone, ?_⟩
  rintro ⟨buckets, hnew, -⟩
  rw [hnone] at hnew
  cases hnew

end Cache

end MerkleService
