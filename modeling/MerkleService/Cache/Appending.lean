import MerkleService.Cache.OnDemand
import MerkleService.Cache.Trimming
import MerkleService.Cache.Sizes

/-!
# Appending to the values of many keys

`SetMultiKeysSingleValueAppended` (`internal/cache/improved_cache.go`) takes a blob of keys and one
value, whose bytes are to be "appended to the end of the previous value bytes".  The keys are
distributed over the buckets, and each bucket is given its keys by `SetMultiKeysSingleValue`.  There
`Get` appends the previous value to a slice that begins as the new one, so that the new bytes come
first; and a preallocated bucket sets the new value alone.

* `AnyCache.setMultiKeysSingleValueAppended` : the call, for all types of buckets.
* `AppendsWhen` : old and new value are repetitions of one string of bytes; or, for preallocated
  buckets, there is no old value.
* `get_appended_iff` : **a key has its old value with the new one behind it if and only if** this
  holds.
-/

namespace MerkleService

namespace Cache

/-! ### Preallocated buckets -/

namespace PreBucket

section

variable (sum64 : List UInt8 → UInt64)

/-- `SetMultiKeysSingleValue`. -/
def setMultiKeysSingleValue (b : PreBucket) (value : List UInt8) :
    List (List UInt8) → Option PreBucket
  | [] => some b
  | key :: keys => do
    let (b, _) ← b.set key value (sum64 key)
    setMultiKeysSingleValue b value keys

/-- One call; there are no system calls after `Init`. -/
def call (b : PreBucket) : Call → Option (PreBucket × Answer)
  | .set _ k v h => (b.set k v h).map (Prod.map id .set)
  | .setMulti _ keys values => (b.setMulti sum64 keys values).map (·, .done)
  | .setMultiKeysSingleValue _ keys value =>
    (b.setMultiKeysSingleValue sum64 value keys).map (·, .done)
  | .get dst k h returnDst => (b.get dst k h returnDst).map fun p => (b, .got p.1 p.2)
  | .del h => some (b.del h, .done)
  | .reset => some (b.reset, .done)

end

end PreBucket

/-! ### Buckets of all types -/

/-- The code of the buckets with allocation on demand; every other type counts as `Trimmed`. -/
def BucketType.onDemand : BucketType → OnDemand
  | .unallocated => .unallocated
  | _ => .trimmed

namespace AnyBucket

def get (dst k : List UInt8) (h : UInt64) (returnDst : Bool) :
    AnyBucket → Option (List UInt8 × Bool)
  | .onDemand b => b.get dst k h returnDst
  | .preallocated b => b.get dst k h returnDst

variable (t : BucketType) (sum64 : List UInt8 → UInt64)

def setMultiKeysSingleValue (mmapErr : ℕ → Option String) (value : List UInt8)
    (keys : List (List UInt8)) : AnyBucket → Option AnyBucket
  | .onDemand b => (t.onDemand.setMultiKeysSingleValue sum64 mmapErr b value keys).map .onDemand
  | .preallocated b => (b.setMultiKeysSingleValue sum64 value keys).map .preallocated

def call : AnyBucket → Call → Option (AnyBucket × Answer)
  | .onDemand b, c => (t.onDemand.call sum64 b c).map (Prod.map .onDemand id)
  | .preallocated b, c => (b.call sum64 c).map (Prod.map .preallocated id)

/-- A bucket as a machine that answers calls; after a panic there is none. -/
def machine : Mealy (Option AnyBucket) Call (Option Answer) :=
  ⟨fun s c => let r := s.bind (call t sum64 · c); (r.map Prod.fst, r.map Prod.snd)⟩

/-- `Get` finds the key, with this value. -/
def Finds (b : AnyBucket) (k v : List UInt8) : Prop := b.get [] k (sum64 k) true = some (v, true)

end AnyBucket

/-! ### The cache -/

/-- `ImprovedCache`, with buckets of any type. -/
structure AnyCache where
  bucketType : BucketType
  buckets : Fin bucketsCount → AnyBucket

/-- The loop that divides the blob of keys. -/
def cutKeys (keySize : ℕ) (keys : List UInt8) : List (List UInt8) :=
  (List.range (keys.length / keySize)).map fun i => (keys.drop (i * keySize)).take keySize

/-- The keys of a bucket. -/
def batchedKeys (sum64 : List UInt8 → UInt64) (keys : List (List UInt8)) (i : Fin bucketsCount) :
    List (List UInt8) :=
  keys.filter fun k => bucketOf (sum64 k) = i

namespace AnyCache

variable (sum64 : List UInt8 → UInt64)

/-- `SetMultiKeysSingleValueAppended`: the buckets are given their keys in parallel.  `none` is a
panic: a division by zero, or a slice out of bounds. -/
def setMultiKeysSingleValueAppended (mmapErr : Fin bucketsCount → ℕ → Option String) (c : AnyCache)
    (keys value : List UInt8) (keySize : ℤ) : Option (Except String AnyCache) :=
  if keySize = 0 then none
  else if (keys.length : ℤ).tmod keySize ≠ 0 then
    some (.error ("keys length must be a multiple of keySize; got " ++ toString keys.length ++
      "; want " ++ toString keySize))
  else if keySize < 0 then if keys = [] then some (.ok c) else none
  else (sequence fun i => (c.buckets i).setMultiKeysSingleValue c.bucketType sum64 (mmapErr i) value
    (batchedKeys sum64 (cutKeys keySize.toNat keys) i)).map fun buckets => .ok { c with buckets }

/-- `Get`: the buffer after the call and whether the key was found. -/
def get (c : AnyCache) (dst k : List UInt8) : Option (List UInt8 × Bool) :=
  (c.buckets (bucketOf (sum64 k))).get dst k (sum64 k) true

/-- The value of a key, which is empty if the key is not found. -/
def valueOf (c : AnyCache) (k : List UInt8) : List UInt8 :=
  match c.get sum64 [] k with
  | some (v, true) => v
  | _ => []

/-- The cache has been made by `New`, and its buckets have then been given any calls. -/
def Reached (c : AnyCache) : Prop :=
  ∃ maxBytes buckets, newCache maxBytes c.bucketType = some (.ok buckets) ∧
    ∀ i : Fin bucketsCount, ∃ b calls, buckets[i.val]? = some b ∧
      (∀ call ∈ calls, Call.Supplied call) ∧
      (AnyBucket.machine c.bucketType sum64).run (some b) calls = some (c.buckets i)

/-- The entry of a key is not evicted during the call that leads from `c` to `c'`: if the key is
found before, it is still found when its turn has come, and it is found at the end. -/
def NotEvicted (mmapErr : Fin bucketsCount → ℕ → Option String) (keys : List (List UInt8))
    (value : List UInt8) (c c' : AnyCache) (k : List UInt8) : Prop :=
  (∀ v, c.get sum64 [] k = some (v, true) →
    ∃ b v', (c.buckets (bucketOf (sum64 k))).setMultiKeysSingleValue c.bucketType sum64
        (mmapErr (bucketOf (sum64 k))) value
        ((batchedKeys sum64 keys (bucketOf (sum64 k))).takeWhile fun k' => k' ≠ k) = some b ∧
      b.Finds sum64 k v') ∧
  ∃ v, c'.get sum64 [] k = some (v, true)

end AnyCache

/-- When the code appends. -/
def AppendsWhen : BucketType → (old value : List UInt8) → Prop
  | .preallocated, old, _ => old = []
  | _, old, value => ∃ (w : List UInt8) (m n : ℕ), old = (List.replicate m w).flatten ∧
      value = (List.replicate n w).flatten

/-! ### What the buckets stand for -/

/-- The bucket is of the type and stands for a map. -/
def AnyBucket.Sound : BucketType → AnyBucket → Prop
  | .preallocated, .preallocated b => ∃ a, Tracks b a
  | .unallocated, .onDemand b => ∃ a, Refines 1 b a
  | .trimmed, .onDemand b => ∃ a, Refines 1 b a
  | _, _ => False

section

variable {sum64 : List UInt8 → UInt64} {t : BucketType}

theorem AnyBucket.Sound.cases {b : AnyBucket} (h : b.Sound t) :
    (t ≠ .preallocated ∧ ∃ b' a, b = .onDemand b' ∧ Refines 1 b' a) ∨
      t = .preallocated ∧ ∃ b' a, b = .preallocated b' ∧ Tracks b' a := by
  cases b with
  | onDemand b =>
    cases t with
    | unallocated => exact Or.inl ⟨by decide, b, h.choose, rfl, h.choose_spec⟩
    | preallocated => cases h
    | trimmed => exact Or.inl ⟨by decide, b, h.choose, rfl, h.choose_spec⟩
  | preallocated b =>
    cases t with
    | unallocated => cases h
    | preallocated => exact Or.inr ⟨rfl, b, h.choose, rfl, h.choose_spec⟩
    | trimmed => cases h

theorem AnyBucket.sound_onDemand (ht : t ≠ .preallocated) {b : Bucket} {a : Spec}
    (h : Refines 1 b a) : Sound t (.onDemand b) := by
  cases t with
  | unallocated => exact ⟨a, h⟩
  | preallocated => exact absurd rfl ht
  | trimmed => exact ⟨a, h⟩

theorem eq_replicate_of_initBuckets {init : Option (Except String AnyBucket)} {context : String}
    {n : ℕ} {buckets : List AnyBucket} (h : initBuckets init context n = some (.ok buckets)) :
    ∀ b ∈ buckets, init = some (.ok b) := by
  cases n with
  | zero =>
    obtain rfl : [] = buckets := by simpa [initBuckets] using h
    simp
  | succ n =>
    cases init with
    | none => cases h
    | some r =>
      cases r with
      | error err => cases h
      | ok b' =>
        rw [initBuckets_ok] at h
        obtain rfl : List.replicate (n + 1) b' = buckets := by simpa using h
        intro b hb
        rw [List.eq_of_mem_replicate hb]

theorem sound_newCache {maxBytes : ℤ} {buckets : List AnyBucket}
    (hnew : newCache maxBytes t = some (.ok buckets)) : ∀ b ∈ buckets, b.Sound t := by
  have honDemand : ∀ {context : String} {b : AnyBucket}, b ∈ buckets →
      initBuckets (some ((Bucket.init (maxBucketBytes maxBytes)).map .onDemand)) context
        bucketsCount = some (.ok buckets) → t ≠ .preallocated → b.Sound t := by
    intro context b hb hinit ht
    have hb' := eq_replicate_of_initBuckets hinit b hb
    cases hres : Bucket.init (maxBucketBytes maxBytes) with
    | error err =>
      rw [hres] at hb'
      cases hb'
    | ok b₀ =>
      rw [hres] at hb'
      obtain rfl : AnyBucket.onDemand b₀ = b := by simpa [Except.map] using hb'
      exact AnyBucket.sound_onDemand ht (refines_init hres)
  intro b hb
  unfold newCache at hnew
  by_cases hpos : maxBytes ≤ 0
  · rw [if_pos hpos] at hnew
    cases hnew
  rw [if_neg hpos] at hnew
  cases t with
  | unallocated => exact honDemand hb hnew (by decide)
  | trimmed => exact honDemand hb hnew (by decide)
  | preallocated =>
    have hb' := eq_replicate_of_initBuckets hnew b hb
    cases hres : PreBucket.init none (maxBucketBytes maxBytes) defaultTrimRatio with
    | none =>
      rw [hres] at hb'
      cases hb'
    | some r =>
      rw [hres] at hb'
      cases r with
      | error err => cases hb'
      | ok b₀ =>
        obtain rfl : AnyBucket.preallocated b₀ = b := by simpa [Except.map] using hb'
        exact ⟨.empty, (tracks_init (by decide) (by decide) hres).1⟩

/-! ### The loops -/

theorem Tracks.setMultiKeys {b : PreBucket} {a : LogSpec} (h : Tracks b a)
    (keys : List (List UInt8)) (value : List UInt8) :
    ∃ b', b.setMultiKeysSingleValue sum64 value keys = some b' ∧
      b'.chunks.length = b.chunks.length ∧ b'.trimRatio = b.trimRatio ∧
      Tracks b' (keys.foldl (fun a k =>
        logWrite b.chunks.length b.numOfChunksToRemove a (sum64 k) k value) a) := by
  induction keys generalizing b a with
  | nil => exact ⟨b, rfl, rfl, rfl, h⟩
  | cons k keys ih =>
    obtain ⟨b₁, err, hset, hlen₁, hratio₁, h₁⟩ := h.write k value (sum64 k)
    obtain ⟨b', hrest, hlen', hratio', h'⟩ := ih h₁
    rw [numOfChunksToRemove_congr hlen₁ hratio₁, hlen₁] at h'
    refine ⟨b', ?_, hlen'.trans hlen₁, hratio'.trans hratio₁, h'⟩
    rw [PreBucket.setMultiKeysSingleValue, hset]
    exact hrest

theorem Tracks.call {b : PreBucket} {a : LogSpec} (h : Tracks b a) {c : Call} (hc : c.Supplied) :
    ∃ b' r a', b.call sum64 c = some (b', r) ∧ Tracks b' a' := by
  cases c with
  | set mmapErr k v hash =>
    obtain ⟨b', err, hset, -, -, h'⟩ := h.write k v hash
    exact ⟨b', .set err, _, by rw [PreBucket.call, hset]; rfl, h'⟩
  | setMulti mmapErr keys values =>
    obtain ⟨b', hset, -, -, h'⟩ := h.setMulti sum64 hc
    exact ⟨b', .done, _, by rw [PreBucket.call, hset, Option.map_some], h'⟩
  | setMultiKeysSingleValue mmapErr keys value =>
    obtain ⟨b', hset, -, -, h'⟩ := @Tracks.setMultiKeys sum64 b a h keys value
    exact ⟨b', .done, _, by rw [PreBucket.call, hset, Option.map_some], h'⟩
  | get dst k hash returnDst =>
    exact ⟨b, _, a, by rw [PreBucket.call, h.get, Option.map_some], h⟩
  | del hash => exact ⟨b.del hash, .done, _, rfl, h.del hash⟩
  | reset => exact ⟨b.reset, .done, _, rfl, h.reset⟩

theorem AnyBucket.Sound.call {b : AnyBucket} (h : b.Sound t) {c : Call} (hc : c.Supplied) :
    ∃ b' r, AnyBucket.call t sum64 b c = some (b', r) ∧ b'.Sound t := by
  obtain ⟨ht, b, a, rfl, href⟩ | ⟨rfl, b, a, rfl, htracks⟩ := h.cases
  · obtain ⟨b', r, a', hcall, -, h', -⟩ := @Refines.call b a sum64 t.onDemand href c hc
    refine ⟨.onDemand b', r, ?_, sound_onDemand ht h'⟩
    rw [AnyBucket.call, hcall]
    rfl
  · obtain ⟨b', r, a', hcall, h'⟩ := @Tracks.call sum64 b a htracks c hc
    refine ⟨.preallocated b', r, ?_, a', h'⟩
    rw [AnyBucket.call, hcall]
    rfl

/-- **Whatever the buckets of a cache are given, they stand for maps.** -/
theorem AnyCache.Reached.sound {c : AnyCache} (h : c.Reached sum64) (i : Fin bucketsCount) :
    (c.buckets i).Sound c.bucketType := by
  obtain ⟨maxBytes, buckets, hnew, hreach⟩ := h
  obtain ⟨b, calls, hb, hcalls, hrun⟩ := hreach i
  have hinv := Mealy.run_invariant (M := AnyBucket.machine c.bucketType sum64)
    (P := fun s => ∃ b', s = some b' ∧ b'.Sound c.bucketType) ?_
    ⟨b, rfl, sound_newCache hnew b (List.mem_of_getElem? hb)⟩ hcalls
  · obtain ⟨b', hb', hsound⟩ := hinv
    rwa [Option.some.inj (hrun.symm.trans hb')]
  · rintro _ call ⟨b', rfl, hsound⟩ hcall
    obtain ⟨b'', r, hstep, hsound'⟩ := @AnyBucket.Sound.call sum64 _ b' hsound call hcall
    exact ⟨b'', by simp [AnyBucket.machine, hstep], hsound'⟩

/-! ### One key of the loop -/

theorem Refines.get_nil {b : Bucket} {a : Spec} (h : Refines 1 b a) (k : List UInt8)
    (hash : UInt64) :
    b.get [] k hash true = some ((a.find hash k).getD [], (a.find hash k).isSome) := by
  rw [h.get]
  cases a.find hash k <;> rfl

theorem Tracks.get_nil {b : PreBucket} {a : LogSpec} (h : Tracks b a) (k : List UInt8)
    (hash : UInt64) : b.get [] k hash true =
      some ((a.find chunkSize hash k).getD [], (a.find chunkSize hash k).isSome) := by
  rw [h.get]
  cases a.find chunkSize hash k <;> rfl

section

variable {n : ℕ} {a : Spec}

theorem wellFormed_write (h : a.WellFormed chunkSize n entryLen) (hash : UInt64)
    (k v : List UInt8) : (write n a hash k v).WellFormed chunkSize n entryLen := by
  unfold write
  split_ifs with hfit
  · exact h.insert hash hfit
  · exact h

theorem find_of_find_write (h : a.WellFormed chunkSize n entryLen) {hash hash' : UInt64}
    {k k' v v' : List UInt8} (hne : k' ≠ k) (hfind : (write n a hash' k' v').find hash k = some v) :
    a.find hash k = some v := by
  unfold write at hfind
  split_ifs at hfind
  · exact RingMap.find_of_find_insert h hne hfind
  · exact hfind

end

theorem find_specCall_eq {n : ℕ} {a : Spec} (h : a.WellFormed chunkSize n entryLen)
    {mmapErr : ℕ → Option String} {keys : List (List UInt8)} {value k : List UInt8} (hk : k ∉ keys)
    (hkept : (a.find (sum64 k) k).isSome = true →
      ((specCall n sum64 a (.setMultiKeysSingleValue mmapErr keys value)).find
        (sum64 k) k).isSome = true) :
    (specCall n sum64 a (.setMultiKeysSingleValue mmapErr keys value)).find (sum64 k) k =
      a.find (sum64 k) k :=
  @List.find_foldl_eq _ _ _ (fun a k => a.find (sum64 k) k) _
    (fun a => a.WellFormed chunkSize n entryLen) (fun _ k hwf => wellFormed_write hwf (sum64 k) k _)
    (fun _ _ _ _ hwf hne => find_of_find_write hwf hne) keys k hk a h hkept

/-- In a bucket with allocation on demand the new bytes come before the old ones. -/
theorem Refines.appended (T : OnDemand) {b : Bucket} {a : Spec} (h : Refines 1 b a)
    {mmapErr : ℕ → Option String} (hmmap : ∀ i, mmapErr i = none) {k : List UInt8}
    {pre post : List (List UInt8)} (hpre : k ∉ pre) (hpost : k ∉ post) (value : List UInt8) :
    ∃ b₁ a₁ b' a', T.setMultiKeysSingleValue sum64 mmapErr b value pre = some b₁ ∧
      Refines 1 b₁ a₁ ∧
      T.setMultiKeysSingleValue sum64 mmapErr b value (pre ++ k :: post) = some b' ∧
      Refines 1 b' a' ∧
      (((a.find (sum64 k) k).isSome = true → (a₁.find (sum64 k) k).isSome = true) →
        entryLen k ((a.find (sum64 k) k).getD [] ++ value) < chunkSize →
        (a'.find (sum64 k) k).isSome = true →
        a'.find (sum64 k) k = some (value ++ (a.find (sum64 k) k).getD [])) := by
  obtain ⟨b₁, a₁, hpre₁, hlen₁, h₁, ha₁⟩ :=
    @Refines.setMultiKeysOnDemand b a sum64 T h mmapErr pre value
  obtain ⟨b', a', hrun, -, h', ha'⟩ :=
    @Refines.setMultiKeysOnDemand b a sum64 T h mmapErr (pre ++ k :: post) value
  refine ⟨b₁, a₁, b', a', hpre₁, h₁, hrun, h', fun hkept hfit hfound => ?_⟩
  have hturn : a₁.find (sum64 k) k = a.find (sum64 k) k := by
    rw [ha₁ hmmap] at hkept ⊢
    exact find_specCall_eq h.wf hpre hkept
  -- the turn of the key, and what follows
  have hsplit : a' = specCall b.chunks.length sum64 (Cache.write b.chunks.length a₁ (sum64 k) k
      (value ++ (a₁.find (sum64 k) k).getD [])) (.setMultiKeysSingleValue mmapErr post value) := by
    rw [ha' hmmap, ha₁ hmmap]
    exact List.foldl_append
  have hfit' : entryLen k (value ++ (a₁.find (sum64 k) k).getD []) < chunkSize := by
    rw [entryLen, Bucket.length_encode, List.length_append] at hfit ⊢
    rw [hturn]
    omega
  rw [hsplit] at hfound ⊢
  rw [find_specCall_eq (wellFormed_write (hlen₁ ▸ h₁.wf) _ _ _) hpost fun _ => hfound,
    Cache.write, if_pos hfit', RingMap.find_insert_self, hturn]

theorem Tracks.appended {b : PreBucket} {a : LogSpec} (h : Tracks b a) {k : List UInt8}
    {pre post : List (List UInt8)} (hpost : k ∉ post) {value : List UInt8}
    (hfit : entryLen k value < chunkSize)
    (hfound : (((pre ++ k :: post).foldl (fun a k => logWrite b.chunks.length
      b.numOfChunksToRemove a (sum64 k) k value) a).find chunkSize (sum64 k) k).isSome = true) :
    ((pre ++ k :: post).foldl (fun a k => logWrite b.chunks.length
      b.numOfChunksToRemove a (sum64 k) k value) a).find chunkSize (sum64 k) k = some value := by
  obtain ⟨b₁, -, hlen₁, hratio₁, h₁⟩ := @Tracks.setMultiKeys sum64 b a h pre value
  have hremove := remove_pos h.ratio_pos h.length_pos
  have hremove' : b.numOfChunksToRemove ≤ b.chunks.length := remove_le h.ratio_le
  rw [List.foldl_append, List.foldl_cons] at hfound ⊢
  refine (@List.find_foldl_eq _ _ _ (fun (a : LogSpec) k => a.find chunkSize (sum64 k) k) _
    (fun _ => True) (fun _ _ _ => trivial) ?_ post k hpost _ trivial fun _ => hfound).trans ?_
  · intro a k k' x _ hne hfind
    unfold logWrite at hfind
    split_ifs at hfind
    · exact LogMap.find_of_find_insert hne hfind
    · exact hfind
  · have hwf := h₁.wf
    rw [hlen₁] at hwf
    simp only [logWrite, if_pos hfit]
    exact LogMap.find_insert_self hwf hremove hremove' chunkSize_pos _ _ _

/-- What a bucket stores for a key with an old value. -/
def BucketType.stores : BucketType → (old value : List UInt8) → List UInt8
  | .preallocated, _, value => value
  | _, old, value => value ++ old

theorem BucketType.stores_of_ne (ht : t ≠ .preallocated) (old value : List UInt8) :
    t.stores old value = value ++ old := by
  cases t with
  | preallocated => exact absurd rfl ht
  | unallocated => rfl
  | trimmed => rfl

/-- It is the old value with the new one behind it under the condition. -/
theorem stores_eq_append_iff (old value : List UInt8) :
    t.stores old value = old ++ value ↔ AppendsWhen t old value := by
  cases t with
  | preallocated => exact List.self_eq_append_left
  | unallocated => exact eq_comm.trans List.append_comm_iff
  | trimmed => exact eq_comm.trans List.append_comm_iff

namespace AnyBucket

variable {b : AnyBucket} {mmapErr : ℕ → Option String}

theorem Sound.setMultiKeys (h : b.Sound t) (value : List UInt8) (keys : List (List UInt8)) :
    ∃ b', b.setMultiKeysSingleValue t sum64 mmapErr value keys = some b' := by
  obtain ⟨-, b, a, rfl, href⟩ | ⟨rfl, b, a, rfl, htracks⟩ := h.cases
  · obtain ⟨b', -, hset, -⟩ :=
      @Refines.setMultiKeysOnDemand b a sum64 t.onDemand href mmapErr keys value
    exact ⟨.onDemand b', by rw [setMultiKeysSingleValue, hset, Option.map_some]⟩
  · obtain ⟨b', hset, -⟩ := @Tracks.setMultiKeys sum64 b a htracks keys value
    exact ⟨.preallocated b', by rw [setMultiKeysSingleValue, hset, Option.map_some]⟩

/-- **What the loop leaves for a key**: `f` and `f'` are what is found for it before and after. -/
theorem Sound.appended (h : b.Sound t) (hmmap : ∀ i, mmapErr i = none) {k : List UInt8}
    {pre post : List (List UInt8)} (hpre : k ∉ pre) (hpost : k ∉ post) (value : List UInt8) :
    ∃ (b₁ b' : AnyBucket) (f f' : Option (List UInt8)),
      b.setMultiKeysSingleValue t sum64 mmapErr value pre = some b₁ ∧
      b.setMultiKeysSingleValue t sum64 mmapErr value (pre ++ k :: post) = some b' ∧
      b.get [] k (sum64 k) true = some (f.getD [], f.isSome) ∧
      b'.get [] k (sum64 k) true = some (f'.getD [], f'.isSome) ∧
      ((f.isSome = true → ∃ v, b₁.Finds sum64 k v) → f'.isSome = true →
        entryLen k (f.getD [] ++ value) < chunkSize → f' = some (t.stores (f.getD []) value)) := by
  obtain ⟨ht, b, a, rfl, href⟩ | ⟨rfl, b, a, rfl, htracks⟩ := h.cases
  · obtain ⟨b₁, a₁, b', a', hpre₁, h₁, hrun, h', hvalue⟩ :=
      @Refines.appended sum64 t.onDemand b a href mmapErr hmmap k pre post hpre hpost value
    refine ⟨.onDemand b₁, .onDemand b', a.find (sum64 k) k, a'.find (sum64 k) k, ?_, ?_,
      href.get_nil k _, h'.get_nil k _, fun hkept hfound hfit => ?_⟩
    · rw [setMultiKeysSingleValue, hpre₁, Option.map_some]
    · rw [setMultiKeysSingleValue, hrun, Option.map_some]
    · rw [BucketType.stores_of_ne ht]
      refine hvalue (fun hsome => ?_) hfit hfound
      obtain ⟨v, hv⟩ := hkept hsome
      have hget := (h₁.get_nil k (sum64 k)).symm.trans hv
      simp only [Option.some.injEq, Prod.mk.injEq] at hget
      exact hget.2
  · obtain ⟨b₁, hpre₁⟩ := @Sound.setMultiKeys sum64 _ _ mmapErr h value pre
    obtain ⟨b', hrun, -, -, h'⟩ := @Tracks.setMultiKeys sum64 b a htracks (pre ++ k :: post) value
    refine ⟨b₁, .preallocated b', a.find chunkSize (sum64 k) k, _, hpre₁, ?_,
      htracks.get_nil k _, h'.get_nil k _, fun _ hfound hfit => ?_⟩
    · rw [setMultiKeysSingleValue, hrun, Option.map_some]
    · have hfit' : entryLen k value < chunkSize := by
        rw [entryLen, Bucket.length_encode, List.length_append] at hfit
        rw [entryLen, Bucket.length_encode]
        omega
      exact htracks.appended hpost hfit' hfound

end AnyBucket

theorem exists_batchedKeys {keys : List (List UInt8)} (hnodup : keys.Nodup) {k : List UInt8}
    (hk : k ∈ keys) : ∃ pre post,
      batchedKeys sum64 keys (bucketOf (sum64 k)) = pre ++ k :: post ∧ k ∉ pre ∧ k ∉ post ∧
      (batchedKeys sum64 keys (bucketOf (sum64 k))).takeWhile (fun k' => k' ≠ k) = pre := by
  have hmem : k ∈ batchedKeys sum64 keys (bucketOf (sum64 k)) :=
    List.mem_filter.2 ⟨hk, by simp⟩
  have hnodup' : (batchedKeys sum64 keys (bucketOf (sum64 k))).Nodup := hnodup.filter _
  obtain ⟨pre, post, hsplit⟩ := List.append_of_mem hmem
  rw [hsplit] at hnodup' ⊢
  obtain ⟨hpre, hpost⟩ : k ∉ pre ∧ k ∉ post := by
    rw [List.nodup_middle, List.nodup_cons, List.mem_append, not_or] at hnodup'
    exact hnodup'.1
  refine ⟨pre, post, rfl, hpre, hpost, ?_⟩
  rw [List.takeWhile_append_of_pos, List.takeWhile_cons_of_neg (by simp), List.append_nil]
  intro k' hk'
  simp only [ne_eq, decide_not, Bool.not_eq_true', decide_eq_false_iff_not]
  rintro rfl
  exact hpre hk'

end

/-! ### The call -/

/-- **When appending appends.**  For all types of buckets, every cache that can be reached, every
blob of different keys, whose length is a multiple of `keySize ≥ 1`, and every value, when memory
can be mapped: the call succeeds, and for each key whose entry is not evicted during the call and
whose old value with the new one fits an entry, `Get` returns the old value with the new one behind
it if and only if they are repetitions of one string of bytes; or, where the buckets are
preallocated, if and only if there was no old value. -/
theorem get_appended_iff (sum64 : List UInt8 → UInt64) {c : AnyCache} (hc : c.Reached sum64)
    {keySize : ℤ} (hsize : 1 ≤ keySize) {keys : List UInt8} (hdvd : keySize ∣ keys.length)
    (hnodup : (cutKeys keySize.toNat keys).Nodup) (value : List UInt8)
    {mmapErr : Fin bucketsCount → ℕ → Option String} (hmmap : ∀ i j, mmapErr i j = none) :
    ∃ c', c.setMultiKeysSingleValueAppended sum64 mmapErr keys value keySize = some (.ok c') ∧
      ∀ k ∈ cutKeys keySize.toNat keys,
        AnyCache.NotEvicted sum64 mmapErr (cutKeys keySize.toNat keys) value c c' k →
        entryLen k (c.valueOf sum64 k ++ value) < chunkSize →
        (c'.get sum64 [] k = some (c.valueOf sum64 k ++ value, true) ↔
          AppendsWhen c.bucketType (c.valueOf sum64 k) value) := by
  have hset : ∀ i, ∃ b', (c.buckets i).setMultiKeysSingleValue c.bucketType sum64 (mmapErr i) value
      (batchedKeys sum64 (cutKeys keySize.toNat keys) i) = some b' :=
    fun i => (hc.sound i).setMultiKeys value _
  choose g hg using hset
  refine ⟨{ c with buckets := g }, ?_, fun k hk hstays hfit => ?_⟩
  · unfold AnyCache.setMultiKeysSingleValueAppended
    rw [if_neg (by omega), if_neg (not_not.2 (Int.tmod_eq_zero_of_dvd hdvd)), if_neg (by omega),
      sequence_eq_some hg, Option.map_some]
  · obtain ⟨pre, post, hsplit, hpre, hpost, hturn⟩ := @exists_batchedKeys sum64 _ hnodup k hk
    obtain ⟨b₁, b', f, f', hpre₁, hrun, hget, hget', hvalue⟩ :=
      @AnyBucket.Sound.appended sum64 _ _ _ (hc.sound (bucketOf (sum64 k)))
        (hmmap (bucketOf (sum64 k))) k pre post hpre hpost value
    obtain rfl : b' = g (bucketOf (sum64 k)) := by
      rw [← hsplit, hg] at hrun
      exact (Option.some.inj hrun).symm
    have hold : c.valueOf sum64 k = f.getD [] := by
      unfold AnyCache.valueOf AnyCache.get
      rw [hget]
      cases f <;> rfl
    obtain ⟨hbefore, v', hv'⟩ := hstays
    have hfound : f'.isSome = true := by
      have := hget'.symm.trans hv'
      simp only [Option.some.injEq, Prod.mk.injEq] at this
      exact this.2
    have hstored : f' = some (c.bucketType.stores (f.getD []) value) := by
      refine hvalue (fun hsome => ?_) hfound (hold ▸ hfit)
      obtain ⟨b₂, v, hb₂, hv⟩ := hbefore (f.getD []) (by rw [← hsome]; exact hget)
      rw [hturn, hpre₁] at hb₂
      obtain rfl := Option.some.inj hb₂
      exact ⟨v, hv⟩
    rw [hold, ← stores_eq_append_iff]
    have hend : AnyCache.get sum64 { c with buckets := g } [] k =
        some (c.bucketType.stores (f.getD []) value, true) := by
      rw [hstored] at hget'
      exact hget'
    rw [hend]
    simp

theorem newCache_one : ∃ b₀, Bucket.init (maxBucketBytes 1) = .ok b₀ ∧
    newCache 1 .unallocated = some (.ok (List.replicate bucketsCount (.onDemand b₀))) := by
  obtain ⟨b₀, hinit⟩ : ∃ b₀, Bucket.init (maxBucketBytes 1) = .ok b₀ := ⟨_, rfl⟩
  refine ⟨b₀, hinit, ?_⟩
  rw [newCache, if_neg (by decide), hinit]
  exact initBuckets_ok _ _ _

theorem set_one_key {maxBytes : ℕ} {b₀ : Bucket} (hinit : Bucket.init maxBytes = .ok b₀) :
    ∃ (b : Bucket) (a : Spec), OnDemand.unallocated.set none b₀ [1] [2] 0 = some (b, none) ∧
      Refines 1 b a ∧ a.find 0 [1] = some [2] := by
  obtain ⟨b, hset, -, -, h⟩ | ⟨err, -, -, hwhy⟩ :=
    (refines_init hinit).setOnDemand .unallocated none [1] [2] 0
  · exact ⟨b, _, hset, h, RingMap.find_insert_self _ _ _ _⟩
  · rcases hwhy with hlong | hmmap
    · exact absurd hlong (by decide)
    · exact absurd rfl hmmap

theorem append_in_bucket {b : Bucket} {a : Spec} (h : Refines 1 b a)
    (hfind : a.find 0 [1] = some [2]) {value : List UInt8} (hvalue : value.length = 1) :
    ∃ b', (AnyBucket.onDemand b).setMultiKeysSingleValue .unallocated (fun _ => 0) (fun _ => none)
        value [[1]] = some (.onDemand b') ∧
      b'.get [] [1] 0 true = some (value ++ [2], true) := by
  obtain ⟨b', a', hrun, -, h', ha'⟩ := @Refines.setMultiKeysOnDemand b a (fun _ => 0) .unallocated
    h (fun _ => none) [[1]] value
  refine ⟨b', congrArg (Option.map AnyBucket.onDemand) hrun, ?_⟩
  have hfit : entryLen [1] (value ++ [2]) < chunkSize := by
    rw [entryLen, Bucket.length_encode, List.length_append, hvalue]
    decide
  rw [h'.get_nil, ha' fun _ => rfl]
  simp only [specCall, List.foldl_cons, List.foldl_nil, hfind, Option.getD_some]
  rw [write, if_pos hfit, RingMap.find_insert_self]
  rfl

/-- A cache with one key, which has the value `[2]`, and the call for this key. -/
theorem append_to_one_key {value : List UInt8} (hvalue : value.length = 1) :
    ∃ c c' : AnyCache, c.Reached (fun _ => 0) ∧ c.bucketType = .unallocated ∧
      c.valueOf (fun _ => 0) [1] = [2] ∧
      c.setMultiKeysSingleValueAppended (fun _ => 0) (fun _ _ => none) [1] value 1 =
        some (.ok c') ∧
      AnyCache.NotEvicted (fun _ => 0) (fun _ _ => none) (cutKeys (1 : ℤ).toNat [1]) value c c'
        [1] ∧
      c'.get (fun _ => 0) [] [1] = some (value ++ [2], true) := by
  obtain ⟨b₀, hinit, hnew⟩ := newCache_one
  obtain ⟨b, a, hset, h, hfind⟩ := set_one_key hinit
  have hget : b.get [] [1] 0 true = some ([2], true) := by
    rw [h.get_nil, hfind]
    rfl
  obtain ⟨b', hrun, hget'⟩ := append_in_bucket h hfind hvalue
  have hall : ∀ i, ∃ d, (AnyBucket.onDemand b).setMultiKeysSingleValue .unallocated (fun _ => 0)
      (fun _ => none) value (batchedKeys (fun _ => 0) (cutKeys (1 : ℤ).toNat [1]) i) = some d :=
    fun i => @AnyBucket.Sound.setMultiKeys _ _ _ _ (AnyBucket.sound_onDemand (by decide) h) value _
  choose g hg using hall
  have hg₀ : g (bucketOf 0) = .onDemand b' :=
    Option.some.inj ((hg (bucketOf 0)).symm.trans hrun)
  have hstart : AnyCache.get (fun _ => 0) ⟨.unallocated, fun _ => .onDemand b⟩ [] [1] =
      some ([2], true) := hget
  have hend : AnyCache.get (fun _ => 0) ⟨.unallocated, g⟩ [] [1] = some (value ++ [2], true) :=
    (congrArg (AnyBucket.get [] [1] 0 true) hg₀).trans hget'
  refine ⟨⟨.unallocated, fun _ => .onDemand b⟩, ⟨.unallocated, g⟩, ⟨1, _, hnew, fun i => ?_⟩,
    rfl, ?_, ?_, ⟨fun v _ => ⟨.onDemand b, [2], rfl, hget⟩, _, hend⟩, hend⟩
  · refine ⟨.onDemand b₀, [.set none [1] [2] 0], ?_, by simp [Call.Supplied], ?_⟩
    · rw [List.getElem?_replicate, if_pos i.isLt]
    · simp [Mealy.run, AnyBucket.machine, AnyBucket.call, OnDemand.call, BucketType.onDemand, hset]
  · unfold AnyCache.valueOf
    rw [hstart]
  · unfold AnyCache.setMultiKeysSingleValueAppended
    rw [if_neg (by decide), if_neg (by decide), if_neg (by decide), sequence_eq_some hg,
      Option.map_some]

/-- The old value `[2]` and the new one `[2]` are repetitions of `[2]`. -/
theorem get_appended_same_bytes :
    ∃ c c' : AnyCache, c.Reached (fun _ => 0) ∧ c.valueOf (fun _ => 0) [1] = [2] ∧
      c.setMultiKeysSingleValueAppended (fun _ => 0) (fun _ _ => none) [1] [2] 1 =
        some (.ok c') ∧ c'.get (fun _ => 0) [] [1] = some ([2, 2], true) := by
  obtain ⟨c, c', hc, htype, hold, hcall, hstays, -⟩ := @append_to_one_key [2] rfl
  obtain ⟨c₁, hcall₁, hiff⟩ := @get_appended_iff (fun _ => 0) c hc 1 (by decide) [1]
    (by decide) (by decide) [2] _ fun _ _ => rfl
  obtain rfl : c' = c₁ := by simpa [hcall] using hcall₁
  have hfit : entryLen [1] (c.valueOf (fun _ => 0) [1] ++ [2]) < chunkSize := by
    rw [hold]
    decide
  refine ⟨c, c', hc, hold, hcall, ?_⟩
  have hget := (hiff [1] (by decide) hstays hfit).2 ?_
  · rwa [hold] at hget
  · rw [htype, hold]
    exact ⟨[2], 1, 1, rfl, rfl⟩

/-- The old value `[2]`, and `[3]` is to be appended: `Get` returns `[3, 2]`. -/
theorem new_bytes_come_first :
    ∃ c c' : AnyCache, c.Reached (fun _ => 0) ∧ c.bucketType = .unallocated ∧
      c.valueOf (fun _ => 0) [1] = [2] ∧
      c.setMultiKeysSingleValueAppended (fun _ => 0) (fun _ _ => none) [1] [3] 1 =
        some (.ok c') ∧
      AnyCache.NotEvicted (fun _ => 0) (fun _ _ => none) (cutKeys (1 : ℤ).toNat [1]) [3] c c' [1] ∧
      entryLen [1] (c.valueOf (fun _ => 0) [1] ++ [3]) < chunkSize ∧
      c'.get (fun _ => 0) [] [1] = some ([3, 2], true) ∧
      c'.get (fun _ => 0) [] [1] ≠ some (c.valueOf (fun _ => 0) [1] ++ [3], true) := by
  obtain ⟨c, c', hc, htype, hold, hcall, hstays, hget⟩ := @append_to_one_key [3] rfl
  refine ⟨c, c', hc, htype, hold, hcall, hstays, ?_, hget, ?_⟩
  · rw [hold]
    decide
  · rw [hget, hold]
    decide

end Cache

end MerkleService
