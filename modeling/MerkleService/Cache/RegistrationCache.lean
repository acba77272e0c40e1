import MerkleService.Cache.BoundedMap
import MerkleService.Data.Hex

/-!
# The cache and the registration cache

`ImprovedCache` (`internal/cache/improved_cache.go`) distributes keys over its buckets by their
hash.  `RegistrationCache` (`internal/cache/registration_cache.go`) is one with buckets of type
`Unallocated`, that keeps for a txid, as the bytes it spells, whether it was found to be registered.

* `ImprovedCache.Contains P` : the pairs in the cache satisfy `P`; it is kept by `SetMulti` of such
  pairs, also when memory cannot be mapped (`ImprovedCache.Contains.setMulti`).
* `ImprovedCache.Contains.getCached` : a txid is cached with a value that was set for its bytes.
-/

namespace MerkleService

namespace Cache

/-! ### `ImprovedCache` -/

def bucketsCount : ℕ := 32

structure ImprovedCache where
  buckets : Fin bucketsCount → Bucket

/-- The results of all calls, when none panics. -/
def sequence {n : ℕ} {α : Type*} (f : Fin n → Option α) : Option (Fin n → α) :=
  if h : ∀ i, (f i).isSome then some fun i => (f i).get (h i) else none

theorem sequence_eq_some {n : ℕ} {α : Type*} {f : Fin n → Option α} {g : Fin n → α}
    (h : ∀ i, f i = some (g i)) : sequence f = some g := by
  have hsome : ∀ i, (f i).isSome := fun i => by simp [h i]
  unfold sequence
  rw [dif_pos hsome]
  congr 1
  funext i
  simp [h i]

/-- The number of the bucket of a hash. -/
def bucketOf (h : UInt64) : Fin bucketsCount := ⟨h.toNat % bucketsCount, Nat.mod_lt _ (by decide)⟩

namespace ImprovedCache

/-- `New`, for buckets of type `Unallocated`. -/
def new (maxBytes : ℤ) : Except String ImprovedCache :=
  if maxBytes ≤ 0 then .error ("maxBytes must be greater than 0; got " ++ toString maxBytes)
  else
    let maxBucketBytes := maxBytes.toNat / bucketsCount
    let maxBucketBytes := if maxBucketBytes < chunkSize then chunkSize * 8 else maxBucketBytes
    match Bucket.init maxBucketBytes with
    | .error err => .error ("error creating unallocated cache: " ++ err)
    | .ok b => .ok ⟨fun _ => b⟩

section

variable (sum64 : List UInt8 → UInt64)

/-- The pairs that `SetMulti` hands to bucket `i`. -/
def batch (keys values : List (List UInt8)) (i : Fin bucketsCount) :
    List (List UInt8 × List UInt8) :=
  (keys.zip values).filter fun p => bucketOf (sum64 p.1) = i

/-- `SetMulti`: the buckets are filled in parallel, each from its own batch. -/
def setMulti (mmapErr : Fin bucketsCount → ℕ → Option String) (c : ImprovedCache)
    (keys values : List (List UInt8)) : Option ImprovedCache :=
  if values.length < keys.length then none
  else (sequence fun i => (c.buckets i).setMulti bucketUnallocated sum64 (mmapErr i)
    ((batch sum64 keys values i).map Prod.fst) ((batch sum64 keys values i).map Prod.snd)).map mk

/-- `Get`: the buffer after the call and whether the key was found. -/
def get (c : ImprovedCache) (dst k : List UInt8) : Option (List UInt8 × Bool) :=
  (c.buckets (bucketOf (sum64 k))).get dst k (sum64 k) true

end

end ImprovedCache

/-! ### `RegistrationCache` -/

def newRegistrationCache (maxMB : ℤ) : Except String ImprovedCache :=
  ImprovedCache.new (maxMB * 1024 * 1024)

/-- `cacheValue`. -/
def notRegistered : UInt8 := 0

def registered : UInt8 := 1

section

variable (sum64 : List UInt8 → UInt64)

/-- A value is set for txids; those that are not hexadecimal are left out. -/
def setMultiValue (value : UInt8) (mmapErr : Fin bucketsCount → ℕ → Option String)
    (c : ImprovedCache) (txids : List String) : Option ImprovedCache :=
  let keys := txids.filterMap Hex.decode
  if keys.length = 0 then some c
  else c.setMulti sum64 mmapErr keys (keys.map fun _ => [value])

def setMultiRegistered (mmapErr : Fin bucketsCount → ℕ → Option String) (c : ImprovedCache)
    (txids : List String) : Option ImprovedCache :=
  setMultiValue sum64 registered mmapErr c txids

def setMultiNotRegistered (mmapErr : Fin bucketsCount → ℕ → Option String) (c : ImprovedCache)
    (txids : List String) : Option ImprovedCache :=
  setMultiValue sum64 notRegistered mmapErr c txids

/-- `GetCached`: whether the txid is registered, and whether this is cached. -/
def getCached (c : ImprovedCache) (txid : String) : Option (Bool × Bool) :=
  match Hex.decode txid with
  | none => some (false, false)
  | some key =>
    match c.get sum64 [] key with
    | none => none
    | some (_, false) => some (false, false)
    | some (dest, true) =>
      match dest with
      | [] => some (false, false)
      | byte :: _ => some (decide (byte = registered), true)

/-- `FilterUncached`: the txids that are not cached, and those that are cached as registered. -/
def filterUncached (c : ImprovedCache) : List String → Option (List String × List String)
  | [] => some ([], [])
  | txid :: txids => do
    let (isReg, isCached) ← getCached sum64 c txid
    let (uncached, cachedRegistered) ← filterUncached c txids
    some (if isCached = false then (txid :: uncached, cachedRegistered)
      else if isReg then (uncached, txid :: cachedRegistered)
      else (uncached, cachedRegistered))

end

/-! ### What the cache contains -/

variable (sum64 : List UInt8 → UInt64) {P : List UInt8 → List UInt8 → Prop}

/-- The bucket stands for a map whose pairs satisfy `P`. -/
def Bucket.Contains (P : List UInt8 → List UInt8 → Prop) (b : Bucket) : Prop :=
  ∃ a : Spec, Refines 1 b a ∧ ∀ h e, a.last h = some e → P e.key e.value

/-- A pair is set, or is not because it is too long or memory cannot be mapped. -/
theorem Bucket.Contains.set {b : Bucket} (h : b.Contains P) {k v : List UInt8} (hkv : P k v)
    (mmapErr : Option String) (hash : UInt64) :
    ∃ b' err, b.set bucketUnallocated mmapErr k v hash = some (b', err) ∧ b'.Contains P := by
  obtain ⟨a, href, hP⟩ := h
  rcases href.set_mmapErr bucketUnallocated mmapErr k v hash with hsame | ⟨err, herr⟩
  · obtain ⟨b', err, hset, -, href'⟩ := href.write bucketUnallocated_sound k v hash
    refine ⟨b', err, hsame.trans hset, _, href', fun h' e he => ?_⟩
    unfold write at he
    split_ifs at he
    · rw [RingMap.last_insert] at he
      split_ifs at he
      · obtain rfl := Option.some.inj he
        exact hkv
      · exact hP h' e he
    · exact hP h' e he
  · exact ⟨b, some err, herr, a, href, hP⟩

theorem Bucket.Contains.setMulti {b : Bucket} (h : b.Contains P)
    (pairs : List (List UInt8 × List UInt8)) (hpairs : ∀ p ∈ pairs, P p.1 p.2)
    (mmapErr : ℕ → Option String) :
    ∃ b', b.setMulti bucketUnallocated sum64 mmapErr (pairs.map Prod.fst) (pairs.map Prod.snd) =
      some b' ∧ b'.Contains P := by
  induction pairs generalizing b mmapErr with
  | nil => exact ⟨b, rfl, h⟩
  | cons p pairs ih =>
    obtain ⟨b₁, err, hset, h₁⟩ := h.set (hpairs p List.mem_cons_self) (mmapErr 0) (sum64 p.1)
    obtain ⟨b', hmulti, h'⟩ := ih h₁ (fun q hq => hpairs q (List.mem_cons_of_mem _ hq))
      fun i => mmapErr (i + 1)
    refine ⟨b', ?_, h'⟩
    simp only [List.map_cons, Bucket.setMulti, Option.bind_eq_bind, hset, Option.bind_some]
    exact hmulti

namespace ImprovedCache

/-- The pairs in the cache satisfy `P`. -/
def Contains (P : List UInt8 → List UInt8 → Prop) (c : ImprovedCache) : Prop :=
  ∀ i, (c.buckets i).Contains P

variable {c : ImprovedCache}

theorem contains_new {maxBytes : ℤ} (h : new maxBytes = .ok c) : c.Contains P := by
  unfold new at h
  dsimp only at h
  split_ifs at h
  all_goals
    split at h
    · cases h
    · rename_i b hinit
      obtain rfl := Except.ok.inj h
      exact fun _ => ⟨.empty, refines_init hinit, fun h' e he => by cases he⟩

theorem Contains.mono {Q : List UInt8 → List UInt8 → Prop} (h : c.Contains P)
    (hle : ∀ k v, P k v → Q k v) : c.Contains Q := by
  intro i
  obtain ⟨a, href, hP⟩ := h i
  exact ⟨a, href, fun h' e he => hle _ _ (hP h' e he)⟩

/-- **`SetMulti` sets pairs that it was given, and no others.** -/
theorem Contains.setMulti (h : c.Contains P) {keys values : List (List UInt8)}
    (hlen : keys.length ≤ values.length) (hpairs : ∀ p ∈ keys.zip values, P p.1 p.2)
    (mmapErr : Fin bucketsCount → ℕ → Option String) :
    ∃ c', c.setMulti sum64 mmapErr keys values = some c' ∧ c'.Contains P := by
  have hbucket := fun i => (h i).setMulti sum64 (batch sum64 keys values i)
    (fun p hp => hpairs p (List.mem_of_mem_filter hp)) (mmapErr i)
  choose g hg hcontains using hbucket
  refine ⟨⟨g⟩, ?_, hcontains⟩
  unfold ImprovedCache.setMulti
  rw [if_neg hlen.not_gt, sequence_eq_some hg, Option.map_some]

theorem Contains.get (h : c.Contains P) (dst k : List UInt8) :
    ∃ dst' found, c.get sum64 dst k = some (dst', found) ∧
      (found = true → ∃ v, P k v ∧ dst' = dst ++ v) := by
  obtain ⟨a, href, hP⟩ := h (bucketOf (sum64 k))
  obtain ⟨dst', found, hget, hfound, hvalue⟩ := href.get_iff dst k (sum64 k) true
  refine ⟨dst', found, hget, fun htrue => ?_⟩
  obtain ⟨e, he, rfl, -⟩ := hfound.1 htrue
  refine ⟨e.value, hP _ e he, ?_⟩
  rw [hvalue e he, htrue]
  rfl

/-- **A txid is cached with a value that was set for the bytes it spells.** -/
theorem Contains.getCached (h : c.Contains P) (txid : String) :
    ∃ isReg isCached, getCached sum64 c txid = some (isReg, isCached) ∧
      (isReg = false → isCached = true → ∃ key byte rest, Hex.decode txid = some key ∧
        byte ≠ registered ∧ P key (byte :: rest)) := by
  unfold Cache.getCached
  cases hkey : Hex.decode txid with
  | none => exact ⟨false, false, rfl, by simp⟩
  | some key =>
    obtain ⟨dest, found, hget, hfound⟩ := h.get sum64 [] key
    simp only [hget]
    cases found with
    | false => exact ⟨false, false, rfl, by simp⟩
    | true =>
      obtain ⟨_, hv, rfl⟩ := hfound rfl
      cases dest with
      | nil => exact ⟨false, false, rfl, by simp⟩
      | cons byte rest =>
        refine ⟨decide (byte = registered), true, rfl, fun hreg _ => ?_⟩
        exact ⟨key, byte, rest, rfl, of_decide_eq_false hreg, hv⟩

theorem Contains.setMultiValue (h : c.Contains P) (value : UInt8) {txids : List String}
    (htxids : ∀ txid ∈ txids, ∀ key, Hex.decode txid = some key → P key [value])
    (mmapErr : Fin bucketsCount → ℕ → Option String) :
    ∃ c', setMultiValue sum64 value mmapErr c txids = some c' ∧ c'.Contains P := by
  unfold Cache.setMultiValue
  dsimp only
  split_ifs
  · exact ⟨c, rfl, h⟩
  · refine h.setMulti sum64 (by simp) (fun p hp => ?_) mmapErr
    obtain ⟨hkey, hvalue⟩ := List.of_mem_zip hp
    obtain ⟨txid, htxid, hdecode⟩ := List.mem_filterMap.1 hkey
    obtain ⟨-, -, hv⟩ := List.mem_map.1 hvalue
    rw [← hv]
    exact htxids txid htxid p.1 hdecode

end ImprovedCache

end Cache

end MerkleService
