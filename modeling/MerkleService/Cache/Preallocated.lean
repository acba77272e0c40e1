import MerkleService.Cache.Chunks

/-!
# Preallocated buckets

`bucketPreallocated` of `internal/cache/improved_cache.go` maps the memory of all its chunks at
once.  When the writer comes to the end of the last chunk, the bucket is trimmed: its lowest chunks
are replaced by new ones behind the others, and the offsets in the map are shifted.

`Get` and `Del` are the same code as in the buckets with allocation on demand, and are taken from
there.  A chunk is an array of `ChunkSize` bytes; arrays are referred to by the order in which they
were made.  `none` stands for a panic.

* `PreBucket` : the state of a bucket, with `init`, `reset`, `set`, `setMulti`, `get` and `del`.
* `PreBucket.trim_eq` : what a trim does to the chunks and the map.
-/

namespace MerkleService

namespace Cache

/-- `bucketPreallocated`.  `m` is a map from hashes to words. -/
structure PreBucket where
  /-- The arrays, mapped ones and those made by `make`. -/
  mem : List (List UInt8)
  /-- For each slot its array. -/
  chunks : List ℕ
  m : UInt64 → Option ℕ
  idx : ℕ
  gen : ℕ
  trimRatio : ℕ
  trimCount : ℕ
  currentGenCount : ℕ
  previousGenCount : ℕ

/-- The carving loop: the offsets at which the chunks begin in a region of `len` bytes.  Each chunk
is an array pointer to the first byte of the rest; `data[ChunkSize:]` is out of range when less than
a chunk is left. -/
def carve (pos len : ℕ) : Option (List ℕ) :=
  if len = 0 then some []
  else if _h : chunkSize ≤ len then (carve (pos + chunkSize) (len - chunkSize)).map (pos :: ·)
  else none
termination_by len
decreasing_by
  have : 0 < chunkSize := by decide
  omega

theorem carve_mul (pos n : ℕ) :
    carve pos (n * chunkSize) = some ((List.range n).map fun i => pos + i * chunkSize) := by
  induction n generalizing pos with
  | zero =>
    rw [Nat.zero_mul, carve, if_pos rfl]
    rfl
  | succ n ih =>
    have hpos : 0 < chunkSize := by decide
    have hle : chunkSize ≤ (n + 1) * chunkSize := Nat.le_mul_of_pos_left _ (Nat.succ_pos n)
    rw [carve, if_neg (by omega), dif_pos hle, Nat.succ_mul, Nat.add_sub_cancel, ih,
      Option.map_some, List.range_succ_eq_map, List.map_cons, List.map_map]
    congr 2
    refine List.map_congr_left fun i _ => ?_
    rw [Function.comp_apply, Nat.succ_mul]
    omega

theorem carve_eq_none {pos len : ℕ} (h : ¬ chunkSize ∣ len) : carve pos len = none := by
  induction len using Nat.strong_induction_on generalizing pos with
  | _ len ih =>
    have hpos : 0 < chunkSize := by decide
    have hne : len ≠ 0 := by
      rintro rfl
      exact h (Nat.dvd_zero _)
    rw [carve, if_neg hne]
    by_cases hle : chunkSize ≤ len
    · have hrest : ¬ chunkSize ∣ len - chunkSize := by
        intro hdvd
        refine h ?_
        rw [← Nat.sub_add_cancel hle]
        exact Nat.dvd_add hdvd (Nat.dvd_refl _)
      rw [dif_pos hle, ih (len - chunkSize) (by omega) hrest, Option.map_none]
    · rw [dif_neg hle]

/-- `copy(chunk[pos:], data)`. -/
def copyAt (chunk : List UInt8) (pos : ℕ) (data : List UInt8) : List UInt8 :=
  chunk.splice pos (data.take (chunk.length - pos))

namespace PreBucket

def reset (b : PreBucket) : PreBucket :=
  { b with m := fun _ => none, idx := 0, gen := 1, currentGenCount := 0, previousGenCount := 0 }

/-- `Init`; `mmapErr` is the error of the system call, if it fails. -/
def init (mmapErr : Option String) (maxBytes trimRatio : ℕ) : Option (Except String PreBucket) :=
  if maxBytes = 0 then some (.error "maxBytes cannot be zero")
  else if maxBucketSize ≤ maxBytes then
    some (.error ("too big maxBytes=" ++ toString maxBytes ++ "; should be smaller than " ++
      toString maxBucketSize))
  else
    match mmapErr with
    | some err =>
      some (.error ("cannot allocate " ++ toString maxBytes ++ " bytes via mmap: " ++ err))
    | none => do
      let offsets ← carve 0 maxBytes
      some (.ok (reset {
        mem := offsets.map fun _ => List.replicate chunkSize 0
        chunks := List.range offsets.length
        m := fun _ => none
        idx := 0
        gen := 0
        trimRatio := trimRatio
        trimCount := 0
        currentGenCount := 0
        previousGenCount := 0 }))

theorem init_mul {n : ℕ} (hn : 1 ≤ n) (hsize : n * chunkSize < maxBucketSize) (ratio : ℕ) :
    ∃ b, init none (n * chunkSize) ratio = some (.ok b) ∧ b.chunks.length = n ∧
      ∀ a ∈ b.mem, a.length = chunkSize := by
  have hpos : n * chunkSize ≠ 0 := (Nat.mul_pos hn (by decide)).ne'
  unfold init
  rw [if_neg hpos, if_neg (not_le.2 hsize)]
  simp only [carve_mul, Option.bind_eq_bind, Option.bind_some]
  refine ⟨_, rfl, by simp [reset], ?_⟩
  intro a ha
  obtain ⟨_, -, rfl⟩ := List.mem_map.1 ha
  exact List.length_replicate

theorem init_eq_none {maxBytes : ℕ} (hdvd : ¬ chunkSize ∣ maxBytes)
    (hsize : maxBytes < maxBucketSize) (ratio : ℕ) : init none maxBytes ratio = none := by
  have hpos : maxBytes ≠ 0 := by
    rintro rfl
    exact hdvd (Nat.dvd_zero _)
  unfold init
  rw [if_neg hpos, if_neg (not_le.2 hsize)]
  simp only [carve_eq_none hdvd]
  rfl

/-! ### Trimming -/

/-- `numOfChunksToRemove`, the ceiling taken exactly. -/
def numOfChunksToRemove (b : PreBucket) : ℕ := (b.chunks.length * b.trimRatio + 99) / 100

/-- The loop that moves the kept chunks to the start. -/
def shift (chunks : List ℕ) (remove keep : ℕ) : Option (List ℕ) :=
  (List.range keep).foldlM (fun cs i => (cs[i + remove]?).map fun c => cs.set i c) chunks

/-- `chunks[i] = make([]byte, ChunkSize)`. -/
def makeChunk (b : PreBucket) (i : ℕ) : PreBucket :=
  { b with mem := b.mem ++ [List.replicate chunkSize 0], chunks := b.chunks.set i b.mem.length }

/-- The loop that makes new chunks for slots `keep`, `keep + 1`, and so on. -/
def clear (b : PreBucket) (keep : ℕ) : PreBucket :=
  (List.range' keep (b.chunks.length - keep)).foldl makeChunk b

/-- `cleanLockedMap`. -/
def cleanLockedMap (b : PreBucket) (startingOffset : ℕ) : PreBucket :=
  { b with
    m := fun h => (b.m h).bind fun v =>
      if startingOffset ≤ wordIdx v then some (pack (wordIdx v - startingOffset) b.gen) else none
    trimCount := b.trimCount + 1 }

/-- The branch of `Set` for a bucket without a further chunk. -/
def trim (b : PreBucket) : Option PreBucket := do
  let remove := b.numOfChunksToRemove
  let keep := b.chunks.length - remove
  let chunks ← shift b.chunks remove keep
  let b := clear { b with chunks := chunks } keep
  some (cleanLockedMap { b with previousGenCount := b.currentGenCount, currentGenCount := 0 }
    (remove * chunkSize))

/-! ### Set -/

/-- Where `Set` puts a pair of length `kvLen`: the bucket, which may have been trimmed, and the
offset. -/
def seek (b : PreBucket) (kvLen : ℕ) : Option (PreBucket × ℕ) :=
  let chunkIdx := b.idx / chunkSize
  let chunkIdxNew := (b.idx + kvLen) / chunkSize
  if chunkIdx < chunkIdxNew then
    if b.chunks.length ≤ chunkIdxNew then
      b.trim.map fun b' => (b', chunkSize * (b.chunks.length - b.numOfChunksToRemove))
    else some (b, chunkIdxNew * chunkSize)
  else some (b, b.idx)

/-- `Set`: the new state and the error, if any. -/
def set (b : PreBucket) (k v : List UInt8) (h : UInt64) : Option (PreBucket × Option String) :=
  if 2 ^ maxValueSizeLog ≤ k.length ∨ 2 ^ maxValueSizeLog ≤ v.length then
    some (b, some ("[bucketPreallocated.Set]too big key or value (key " ++ toString k.length ++
      ", value " ++ toString v.length ++ ") max " ++ toString (2 ^ maxValueSizeLog)))
  else
    let kvLen := (Bucket.kvLenBuf k v).length + k.length + v.length
    if chunkSize ≤ kvLen then
      some (b, some ("key, value, and k-v length " ++ toString kvLen ++
        " bytes doesn't fit to a chunk " ++ toString chunkSize ++ " bytes"))
    else do
      let (b, idx) ← b.seek kvLen
      let p ← b.chunks[idx / chunkSize]?
      let chunk ← b.mem[p]?
      if chunk.length = 0 then
        some (b, some "SHOULD NEVER ENTER HERE, chunk is nil or empty")
      else
        some ({ b with
          mem := b.mem.set p (copyAt chunk (idx % chunkSize) (Bucket.kvLenBuf k v ++ k ++ v))
          currentGenCount := b.currentGenCount + 1
          m := Function.update b.m h (some (pack idx b.gen))
          idx := idx + kvLen }, none)

/-- `SetMulti`. -/
def setMulti (sum64 : List UInt8 → UInt64) (b : PreBucket) :
    List (List UInt8) → List (List UInt8) → Option PreBucket
  | [], _ => some b
  | _ :: _, [] => none
  | k :: keys, v :: values => do
    let (b, _) ← b.set k v (sum64 k)
    setMulti sum64 b keys values

/-! ### Get and Del -/

/-- What `Get` reads: full slices of the arrays, the map, the offset and the generation. -/
def view (b : PreBucket) : Bucket where
  mem := b.mem
  chunks := b.chunks.map fun p => some ⟨p, chunkSize⟩
  m := b.m
  idx := b.idx
  gen := b.gen
  freeChunks := []
  allocatedChunks := 0
  nextAllocChunks := 0
  maxSlabChunks := 0
  currentGenCount := b.currentGenCount
  previousGenCount := b.previousGenCount

/-- `Get`: the buffer `dst` after the call, and whether the key was found. -/
def get (b : PreBucket) (dst k : List UInt8) (h : UInt64) (returnDst : Bool) :
    Option (List UInt8 × Bool) :=
  b.view.get dst k h returnDst

def del (b : PreBucket) (h : UInt64) : PreBucket := { b with m := Function.update b.m h none }

/-! ### The loops of a trim -/

theorem shift_eq {chunks : List ℕ} {remove i : ℕ} (h : i + remove ≤ chunks.length) :
    ∃ cs, shift chunks remove i = some cs ∧ cs.length = chunks.length ∧
      ∀ j, cs[j]? = if j < i then chunks[j + remove]? else chunks[j]? := by
  induction i with
  | zero => exact ⟨chunks, rfl, rfl, fun j => by simp⟩
  | succ i ih =>
    obtain ⟨cs, hcs, hlen, hget⟩ := ih (by omega)
    have hi : i + remove < chunks.length := by omega
    have hnext : cs[i + remove]? = some (chunks.get ⟨i + remove, hi⟩) := by
      rw [hget, if_neg (by omega)]
      exact List.getElem?_eq_getElem hi
    refine ⟨cs.set i (chunks.get ⟨i + remove, hi⟩), ?_, by rw [List.length_set, hlen], ?_⟩
    · unfold shift at hcs ⊢
      rw [List.range_succ, List.foldlM_append, hcs]
      simp [hnext]
    · intro j
      rcases eq_or_ne j i with rfl | hne
      · rw [List.getElem?_set_self (by omega), if_pos (by omega)]
        exact (List.getElem?_eq_getElem hi).symm
      · rw [List.getElem?_set_ne hne.symm, hget]
        by_cases hj : j < i
        · rw [if_pos hj, if_pos (by omega)]
        · rw [if_neg hj, if_neg (by omega)]

theorem foldl_makeChunk (b : PreBucket) (keep : ℕ) {count : ℕ}
    (h : keep + count ≤ b.chunks.length) :
    ∃ chunks, (List.range' keep count).foldl makeChunk b = { b with
        mem := b.mem ++ List.replicate count (List.replicate chunkSize 0), chunks := chunks } ∧
      chunks.length = b.chunks.length ∧
      ∀ j, chunks[j]? = if keep ≤ j ∧ j < keep + count then some (b.mem.length + (j - keep))
        else b.chunks[j]? := by
  induction count with
  | zero =>
    refine ⟨b.chunks, by simp, rfl, fun j => ?_⟩
    rw [if_neg (by omega)]
  | succ count ih =>
    obtain ⟨chunks, hfold, hlen, hget⟩ := ih (by omega)
    refine ⟨chunks.set (keep + count) (b.mem.length + count), ?_, by rw [List.length_set, hlen], ?_⟩
    · rw [List.range'_1_concat, List.foldl_append, hfold]
      simp [makeChunk, List.replicate_succ']
    · intro j
      rcases eq_or_ne j (keep + count) with rfl | hne
      · rw [List.getElem?_set_self (by omega), if_pos (by omega), Nat.add_sub_cancel_left]
      · rw [List.getElem?_set_ne hne.symm, hget]
        by_cases hj : keep ≤ j ∧ j < keep + count
        · rw [if_pos hj, if_pos (by omega)]
        · rw [if_neg hj, if_neg (by omega)]

/-- **What a trim does.**  The kept chunks move to the start, new arrays follow, and the words of
the map are shifted; those that point into removed chunks go. -/
theorem trim_eq (b : PreBucket) (hle : b.numOfChunksToRemove ≤ b.chunks.length) :
    ∃ chunks, b.trim = some { b with
        mem := b.mem ++ List.replicate b.numOfChunksToRemove (List.replicate chunkSize 0)
        chunks := chunks
        m := fun h => (b.m h).bind fun v =>
          if b.numOfChunksToRemove * chunkSize ≤ wordIdx v then
            some (pack (wordIdx v - b.numOfChunksToRemove * chunkSize) b.gen) else none
        trimCount := b.trimCount + 1
        previousGenCount := b.currentGenCount
        currentGenCount := 0 } ∧
      chunks.length = b.chunks.length ∧
      ∀ j, chunks[j]? =
        if j + b.numOfChunksToRemove < b.chunks.length then b.chunks[j + b.numOfChunksToRemove]?
        else if j < b.chunks.length then
          some (b.mem.length + (j + b.numOfChunksToRemove - b.chunks.length)) else none := by
  obtain ⟨cs, hshift, hlen, hget⟩ := @shift_eq b.chunks b.numOfChunksToRemove
    (b.chunks.length - b.numOfChunksToRemove) (by omega)
  obtain ⟨chunks, hclear, hlen', hget'⟩ := @foldl_makeChunk { b with chunks := cs }
    (b.chunks.length - b.numOfChunksToRemove) b.numOfChunksToRemove
    (by dsimp only; omega)
  refine ⟨chunks, ?_, hlen'.trans hlen, fun j => ?_⟩
  · have hcount : cs.length - (b.chunks.length - b.numOfChunksToRemove) =
        b.numOfChunksToRemove := by omega
    simp only [trim, hshift, clear, hcount, hclear, cleanLockedMap, Option.bind_eq_bind,
      Option.bind_some]
  · rw [hget']
    dsimp only
    by_cases hj : j + b.numOfChunksToRemove < b.chunks.length
    · rw [if_pos hj, if_neg (by omega), hget, if_pos (by omega)]
    · rw [if_neg hj]
      by_cases hj' : j < b.chunks.length
      · rw [if_pos hj', if_pos (by omega)]
        congr 2
        omega
      · rw [if_neg hj', if_neg (by omega), hget, if_neg (by omega)]
        exact List.getElem?_eq_none (by omega)

end PreBucket

end Cache

end MerkleService
