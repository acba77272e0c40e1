import MerkleService.Data.List
import Mathlib.Data.UInt

/-!
# The buckets of the cache

`ImprovedCache` (`internal/cache/improved_cache.go`) is made of buckets that keep encoded pairs of a
key and a value in a ring of chunks, and a map from hashes to words that hold a generation and an
offset.  This file is the model of the buckets that allocate their chunks on demand, of which
`bucketUnallocated` is the one in production.

A chunk is an array of `ChunkSize` bytes in mapped memory.  The slices in `chunks` begin with their
array and have its capacity; a slice that has been cut to length zero can still be read up to its
capacity.  Arrays are referred to by the order in which they were mapped.

`none` stands for a panic: an index or a slice out of bounds.  An `append` that exceeds the capacity
would leave the mapped array; it is `none` as well.

* `Bucket` : the state of a bucket.
* `Bucket.set`, `Bucket.setMulti`, `Bucket.get`, `Bucket.del`, `Bucket.reset` : its operations.
-/

namespace MerkleService

namespace Cache

/-! ### The configuration -/

def maxValueSizeKB : ℕ := 2

def maxValueSizeLog : ℕ := 11

def chunkSize : ℕ := maxValueSizeKB * 512

def bucketSizeBits : ℕ := 40

def genSizeBits : ℕ := 64 - bucketSizeBits

def maxGen : ℕ := 2 ^ genSizeBits - 1

def maxBucketSize : ℕ := 2 ^ bucketSizeBits

def chunksPerAlloc : ℕ := 1024

def minSlabChunks : ℕ := 8

def maxSlabBytesPerMmap : ℕ := 4 * 1024 * 1024

def minSlabBytesPerMmap : ℕ := minSlabChunks * chunkSize

def calcMaxSlabChunks (maxBucketBytes maxChunks : ℕ) : ℕ :=
  let targetBytes := maxBucketBytes / 16
  let targetBytes := if targetBytes < minSlabBytesPerMmap then minSlabBytesPerMmap else targetBytes
  let targetBytes := if maxSlabBytesPerMmap < targetBytes then maxSlabBytesPerMmap else targetBytes
  let ch := targetBytes / chunkSize
  let ch := if ch < minSlabChunks then minSlabChunks else ch
  let ch := if chunksPerAlloc < ch then chunksPerAlloc else ch
  if 0 < maxChunks ∧ maxChunks < ch then maxChunks else ch

def calcInitialAllocChunks (maxSlabChunks maxChunks : ℕ) : ℕ :=
  if maxChunks ≤ 32 then maxChunks
  else if maxSlabChunks ≤ 32 then maxSlabChunks
  else
    let initial := maxSlabChunks / 4
    if initial < minSlabChunks then minSlabChunks else initial

/-! ### The state -/

/-- A slice of the beginning of an array of `ChunkSize` bytes. -/
structure Slice where
  array : ℕ
  len : ℕ
  deriving DecidableEq

/-- The state of a bucket.  `m` is a map from hashes to words. -/
structure Bucket where
  /-- The mapped arrays. -/
  mem : List (List UInt8)
  chunks : List (Option Slice)
  m : UInt64 → Option ℕ
  idx : ℕ
  gen : ℕ
  freeChunks : List ℕ
  allocatedChunks : ℕ
  nextAllocChunks : ℕ
  maxSlabChunks : ℕ
  currentGenCount : ℕ
  previousGenCount : ℕ

/-- In what the buckets with allocation on demand differ: the name in their messages, and which
words `cleanLockedMap` keeps, given the generation and offset of the word and those of the
bucket. -/
structure Kind where
  name : String
  keeps : (gen idx bGen bIdx : ℕ) → Bool

/-- `bucketUnallocated`. -/
def bucketUnallocated : Kind where
  name := "[bucketUnallocated.Set] "
  keeps gen idx bGen bIdx :=
    decide ((gen + 1 = bGen ∨ gen = maxGen ∧ bGen = 1) ∧ bIdx ≤ idx ∨ gen = bGen ∧ idx < bIdx)

/-- The word for a generation and an offset; the shift drops the high bits of the generation. -/
def pack (idx gen : ℕ) : ℕ := idx ||| (gen <<< bucketSizeBits) % 2 ^ 64

def wordGen (v : ℕ) : ℕ := v >>> bucketSizeBits

def wordIdx (v : ℕ) : ℕ := v &&& (2 ^ bucketSizeBits - 1)

namespace Bucket

/-- The generation of the bucket as it is kept in words. -/
def bGen (b : Bucket) : ℕ := b.gen &&& (2 ^ genSizeBits - 1)

/-! ### Chunks -/

/-- `putChunk`, for all chunks in turn. -/
def putChunks (b : Bucket) : Bucket :=
  { b with freeChunks := b.freeChunks ++ b.chunks.filterMap (Option.map Slice.array),
           chunks := b.chunks.map fun _ => none }

def reset (b : Bucket) : Bucket :=
  { b.putChunks with
    m := fun _ => none
    idx := 0
    gen := 1
    currentGenCount := 0
    previousGenCount := 0
    nextAllocChunks := calcInitialAllocChunks b.maxSlabChunks b.chunks.length }

def init (maxBytes : ℕ) : Except String Bucket :=
  if maxBytes = 0 then .error "maxBytes cannot be zero"
  else if maxBucketSize ≤ maxBytes then
    .error ("too big maxBytes=" ++ toString maxBytes ++ "; should be smaller than " ++
      toString maxBucketSize)
  else
    let maxChunks := maxBytes / chunkSize
    let maxChunks := if maxChunks = 0 then 1 else maxChunks
    .ok (reset {
      mem := []
      chunks := List.replicate maxChunks none
      m := fun _ => none
      idx := 0
      gen := 0
      freeChunks := []
      allocatedChunks := 0
      nextAllocChunks := 0
      maxSlabChunks := calcMaxSlabChunks maxBytes maxChunks
      currentGenCount := 0
      previousGenCount := 0 })

/-- `nextAllocChunks`, or the initial value for a bucket without one. -/
def nextAlloc (b : Bucket) : ℕ :=
  if b.nextAllocChunks = 0 then calcInitialAllocChunks b.maxSlabChunks b.chunks.length
  else b.nextAllocChunks

def maxSlab (b : Bucket) : ℕ := if b.maxSlabChunks = 0 then minSlabChunks else b.maxSlabChunks

/-- The number of chunks of the next slab. -/
def slabChunks (b : Bucket) (remaining : ℕ) : ℕ :=
  let slabChunks := if b.maxSlab < b.nextAlloc then b.maxSlab else b.nextAlloc
  if remaining < slabChunks then remaining else slabChunks

/-- The part of `getChunk` that maps a new slab; `mmapErr` is the error of the system call, if it
fails. -/
def mapSlab (mmapErr : Option String) (b : Bucket) : Except String Bucket :=
  let maxChunks := b.chunks.length
  let remaining := (maxChunks + 2 ^ 64 - b.allocatedChunks) % 2 ^ 64
  if remaining = 0 then
    .error ("cannot allocate more chunks; bucket is at maxChunks=" ++ toString maxChunks)
  else
    let slabChunks := b.slabChunks remaining
    let slabBytes := slabChunks * chunkSize
    if slabBytes = 0 then
      .error ("invalid slabBytes=" ++ toString slabBytes ++
        " (slabChunks=" ++ toString slabChunks ++ ")")
    else
      match mmapErr with
      | some err =>
        .error ("cannot allocate " ++ toString slabBytes ++ " bytes via mmap: " ++ err)
      | none =>
        .ok { b with
          allocatedChunks := b.allocatedChunks + slabChunks
          nextAllocChunks := if b.maxSlab < 2 * b.nextAlloc then b.maxSlab else 2 * b.nextAlloc
          mem := b.mem ++ List.replicate slabChunks (List.replicate chunkSize 0)
          freeChunks := b.freeChunks ++ List.range' b.mem.length slabChunks }

/-- `getChunk`: the last of the free arrays. -/
def getChunk (mmapErr : Option String) (b : Bucket) : Option (Except String (Bucket × ℕ)) :=
  match (if b.freeChunks = [] then b.mapSlab mmapErr else .ok b) with
  | .error err => some (.error err)
  | .ok b =>
    match b.freeChunks.getLast? with
    | none => none
    | some p => some (.ok ({ b with freeChunks := b.freeChunks.dropLast }, p))

/-- `append(chunk, bytes...)`. -/
def append (b : Bucket) (chunk : Slice) (bytes : List UInt8) : Option (Bucket × Slice) :=
  if chunk.len + bytes.length ≤ chunkSize then
    some ({ b with mem := b.mem.modify chunk.array fun a => a.splice chunk.len bytes },
      { chunk with len := chunk.len + bytes.length })
  else none

/-- `chunk[low:high]`. -/
def slice (b : Bucket) (chunk : Option Slice) (low high : ℕ) : Option (List UInt8) :=
  match chunk with
  | none => if low ≤ high ∧ high ≤ 0 then some [] else none
  | some c =>
    if low ≤ high ∧ high ≤ chunkSize then
      b.mem[c.array]?.map fun a => (a.drop low).take (high - low)
    else none

/-! ### Set -/

/-- `cleanLockedMap`; that the map is only made anew when an entry goes makes no difference. -/
def cleanLockedMap (kind : Kind) (b : Bucket) : Bucket :=
  { b with m := fun h => (b.m h).filter fun v => kind.keeps (wordGen v) (wordIdx v) b.bGen b.idx }

/-- `b.gen++`, which leaves out the multiples of `2 ^ genSizeBits`. -/
def nextGen (gen : ℕ) : ℕ :=
  let gen := (gen + 1) % 2 ^ 64
  if gen &&& (2 ^ genSizeBits - 1) = 0 then (gen + 1) % 2 ^ 64 else gen

/-- Where `Set` puts a pair of length `kvLen`: the state with the chunk ready, the offset, the index
of the chunk and whether the ring has been wrapped. -/
def seek (b : Bucket) (kvLen : ℕ) : Option (Bucket × ℕ × ℕ × Bool) :=
  let chunkIdx := b.idx / chunkSize
  let chunkIdxNew := (b.idx + kvLen) / chunkSize
  if chunkIdx < chunkIdxNew then
    if b.chunks.length ≤ chunkIdxNew then do
      -- writing starts over
      let chunk ← b.chunks[0]?
      some ({ b with
        gen := nextGen b.gen
        previousGenCount := b.currentGenCount
        currentGenCount := 0
        chunks := b.chunks.set 0 (chunk.map fun c => { c with len := 0 }) }, 0, 0, true)
    else do
      let chunk ← b.chunks[chunkIdxNew]?
      some ({ b with chunks := b.chunks.set chunkIdxNew (chunk.map fun c => { c with len := 0 }) },
        chunkIdxNew * chunkSize, chunkIdxNew, false)
  else some (b, b.idx, chunkIdx, false)

/-- The chunk to which `Set` appends; a missing one is allocated. -/
def openChunk (mmapErr : Option String) (b : Bucket) (chunkIdx : ℕ) :
    Option (Except String (Bucket × Slice)) :=
  match b.chunks[chunkIdx]? with
  | none => none
  | some (some chunk) => some (.ok (b, chunk))
  | some none =>
    match b.getChunk mmapErr with
    | none => none
    | some (.error err) => some (.error ("cannot allocate chunk: " ++ err))
    | some (.ok (b, p)) => some (.ok (b, ⟨p, 0⟩))

/-- The lengths of key and value, two bytes each. -/
def kvLenBuf (k v : List UInt8) : List UInt8 :=
  [UInt8.ofNat (k.length >>> 8), UInt8.ofNat k.length, UInt8.ofNat (v.length >>> 8),
    UInt8.ofNat v.length]

/-- The end of `Set`: the pair is appended to the chunk and entered into the map. -/
def store (kind : Kind) (b : Bucket) (k v : List UInt8) (h : UInt64) (chunk : Slice)
    (idx chunkIdx : ℕ) (needClean : Bool) : Option Bucket := do
  let (b, chunk) ← b.append chunk (kvLenBuf k v)
  let (b, chunk) ← b.append chunk k
  let (b, chunk) ← b.append chunk v
  let b := { b with
    chunks := b.chunks.set chunkIdx (some chunk)
    currentGenCount := b.currentGenCount + 1
    m := Function.update b.m h (some (pack idx b.gen))
    idx := idx + ((kvLenBuf k v).length + k.length + v.length) }
  some (if needClean then b.cleanLockedMap kind else b)

/-- `Set`: the new state and the error, if any. -/
def set (kind : Kind) (mmapErr : Option String) (b : Bucket) (k v : List UInt8) (h : UInt64) :
    Option (Bucket × Option String) :=
  if 2 ^ maxValueSizeLog ≤ k.length ∨ 2 ^ maxValueSizeLog ≤ v.length then
    some (b, some (kind.name ++ "too big key or value (key " ++ toString k.length ++ ", value " ++
      toString v.length ++ ") max " ++ toString (2 ^ maxValueSizeLog)))
  else
    let kvLen := (kvLenBuf k v).length + k.length + v.length
    if chunkSize ≤ kvLen then
      some (b, some ("key, value, and k-v length " ++ toString kvLen ++
        " bytes doesn't fit to a chunk " ++ toString chunkSize ++ " bytes"))
    else do
      let (b, idx, chunkIdx, needClean) ← b.seek kvLen
      match ← b.openChunk mmapErr chunkIdx with
      | .error err => some (b, some err)
      | .ok (b, chunk) =>
        let b ← b.store kind k v h chunk idx chunkIdx needClean
        some (b, none)

/-- `SetMulti`; `mmapErr i` is the error of the system call for pair `i`. -/
def setMulti (kind : Kind) (sum64 : List UInt8 → UInt64) (mmapErr : ℕ → Option String)
    (b : Bucket) : List (List UInt8) → List (List UInt8) → Option Bucket
  | [], _ => some b
  | _ :: _, [] => none
  | k :: keys, v :: values => do
    let (b, _) ← b.set kind (mmapErr 0) k v (sum64 k)
    setMulti kind sum64 (fun i => mmapErr (i + 1)) b keys values

/-! ### Get and Del -/

/-- The test of `Get` on the generation and offset of a word. -/
def admits (b : Bucket) (gen idx : ℕ) : Bool :=
  decide (gen = b.bGen ∧ idx < b.idx ∨ gen + 1 = b.bGen ∧ b.idx ≤ idx ∨
    gen = maxGen ∧ b.bGen = 1 ∧ b.idx ≤ idx)

/-- A length of two bytes. -/
def readLen (buf : List UInt8) (i : ℕ) : Option ℕ := do
  let high ← buf[i]?
  let low ← buf[i + 1]?
  some (high.toNat <<< 8 ||| low.toNat)

/-- The part of `Get` behind the test: `dst` with the value of the pair at offset `idx`, and whether
its key is `k`. -/
def getAt (b : Bucket) (dst k : List UInt8) (returnDst : Bool) (idx : ℕ) :
    Option (List UInt8 × Bool) :=
  let chunkIdx := idx / chunkSize
  if b.chunks.length ≤ chunkIdx then some (dst, false)
  else do
    let chunk ← b.chunks[chunkIdx]?
    let idx := idx % chunkSize
    if chunkSize ≤ idx + 4 then some (dst, false)
    else
      let kvLenBuf ← b.slice chunk idx (idx + 4)
      let keyLen ← readLen kvLenBuf 0
      let valLen ← readLen kvLenBuf 2
      let idx := idx + 4
      if chunkSize ≤ idx + keyLen + valLen then some (dst, false)
      else
        let key ← b.slice chunk idx (idx + keyLen)
        if k = key then
          let idx := idx + keyLen
          if returnDst then
            let value ← b.slice chunk idx (idx + valLen)
            some (dst ++ value, true)
          else some (dst, true)
        else some (dst, false)

/-- `Get`: the buffer `dst` after the call, and whether the key was found. -/
def get (b : Bucket) (dst k : List UInt8) (h : UInt64) (returnDst : Bool) :
    Option (List UInt8 × Bool) :=
  let v := (b.m h).getD 0
  if 0 < v then
    if b.admits (wordGen v) (wordIdx v) then b.getAt dst k returnDst (wordIdx v)
    else some (dst, false)
  else some (dst, false)

def del (b : Bucket) (h : UInt64) : Bucket := { b with m := Function.update b.m h none }

end Bucket

end Cache

end MerkleService
