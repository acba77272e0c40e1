import MerkleService.Cache.BoundedMap
import MerkleService.LTS.Mealy

/-!
# The two buckets with allocation on demand

`bucketUnallocated` and `bucketTrimmed` (`internal/cache/improved_cache.go`) are the same code but
for the first pass of `cleanLockedMap`.  It counts the entries to keep, and the map is made anew
only when not all entries have been counted.  In `bucketTrimmed` the parentheses of the condition
stand elsewhere, so that all entries of the generation before are counted.

`elementsAdded`, `numberOfItems` and `overWriting` of `bucketTrimmed`, which nothing but the
statistics reads, are left out.

* `OnDemand.set`, `OnDemand.setMulti`, `OnDemand.setMultiKeysSingleValue` : the operations that
  write, for both types of buckets.
* `OnDemand.machine` : a bucket and the answers to the calls it is given, when each system call may
  fail.
* `OnDemand.set_unallocated` : for `bucketUnallocated` the first pass makes no difference.
* `Refines.setOnDemand` : **what `Set` does**, also when memory cannot be mapped.
-/

namespace MerkleService

namespace Cache

/-! ### Cleaning the map -/

/-- `bucketTrimmed`: the name in its messages, and what the second pass of `cleanLockedMap`
keeps. -/
def bucketTrimmed : Kind where
  name := "[bucketTrimmed.Set]"
  keeps gen idx bGen bIdx :=
    decide ((gen + 1 = bGen ∨ gen = maxGen ∧ bGen = 1) ∧ bIdx ≤ idx ∨ gen = bGen ∧ idx < bIdx)

/-- The types of buckets with allocation on demand. -/
inductive OnDemand where
  | unallocated
  | trimmed
  deriving DecidableEq

instance instFintypeWord : Fintype UInt64 :=
  .ofEquiv (Fin UInt64.size) ⟨UInt64.ofFin, UInt64.toFin, fun _ => rfl, fun _ => rfl⟩

/-- `len(b.m)`. -/
def Bucket.mapSize (b : Bucket) : ℕ := (Finset.univ.filter fun h => (b.m h).isSome = true).card

namespace OnDemand

def kind : OnDemand → Kind
  | .unallocated => bucketUnallocated
  | .trimmed => bucketTrimmed

/-- What the first pass of `cleanLockedMap` counts. -/
def counts : OnDemand → (gen idx bGen bIdx : ℕ) → Bool
  | .unallocated, gen, idx, bGen, bIdx =>
    decide ((gen + 1 = bGen ∨ gen = maxGen ∧ bGen = 1) ∧ bIdx ≤ idx ∨ gen = bGen ∧ idx < bIdx)
  | .trimmed, gen, idx, bGen, bIdx =>
    decide ((gen + 1 = bGen ∨ (gen = maxGen ∧ bGen = 1) ∧ bIdx ≤ idx) ∨ gen = bGen ∧ idx < bIdx)

/-- The result of the first pass. -/
def newItems (T : OnDemand) (b : Bucket) : ℕ :=
  (Finset.univ.filter fun h =>
    (b.m h).any (fun v => T.counts (wordGen v) (wordIdx v) b.bGen b.idx) = true).card

/-- `cleanLockedMap`: the map is made anew when the first pass has left out an entry. -/
def cleanLockedMap (T : OnDemand) (b : Bucket) : Bucket :=
  if T.newItems b < b.mapSize then b.cleanLockedMap T.kind else b

/-! ### The operations that write -/

/-- `Set`: the new state and the error, if any. -/
def set (T : OnDemand) (mmapErr : Option String) (b : Bucket) (k v : List UInt8) (h : UInt64) :
    Option (Bucket × Option String) :=
  if 2 ^ maxValueSizeLog ≤ k.length ∨ 2 ^ maxValueSizeLog ≤ v.length then
    some (b, some (T.kind.name ++ "too big key or value (key " ++ toString k.length ++ ", value " ++
      toString v.length ++ ") max " ++ toString (2 ^ maxValueSizeLog)))
  else
    let kvLen := (Bucket.kvLenBuf k v).length + k.length + v.length
    if chunkSize ≤ kvLen then
      some (b, some ("key, value, and k-v length " ++ toString kvLen ++
        " bytes doesn't fit to a chunk " ++ toString chunkSize ++ " bytes"))
    else do
      let (b, idx, chunkIdx, needClean) ← b.seek kvLen
      match ← b.openChunk mmapErr chunkIdx with
      | .error err => some (b, some err)
      | .ok (b, chunk) =>
        let b ← b.store T.kind k v h chunk idx chunkIdx false
        some (if needClean then T.cleanLockedMap b else b, none)

section

variable (sum64 : List UInt8 → UInt64)

/-- `SetMulti`; `mmapErr i` is the error of the system call for pair `i`. -/
def setMulti (T : OnDemand) (mmapErr : ℕ → Option String) (b : Bucket) :
    List (List UInt8) → List (List UInt8) → Option Bucket
  | [], _ => some b
  | _ :: _, [] => none
  | k :: keys, v :: values => do
    let (b, _) ← T.set (mmapErr 0) b k v (sum64 k)
    setMulti T (fun i => mmapErr (i + 1)) b keys values

/-- `SetMultiKeysSingleValue`: `Get` appends the previous value of a key to the slice that begins
as `value`, and the result is set.  The slice is taken to have no spare capacity, so that `append`
leaves the array of `value` alone. -/
def setMultiKeysSingleValue (T : OnDemand) (mmapErr : ℕ → Option String) (b : Bucket)
    (value : List UInt8) : List (List UInt8) → Option Bucket
  | [] => some b
  | key :: keys => do
    let (prevValue, _) ← b.get value key (sum64 key) true
    let (b, _) ← T.set (mmapErr 0) b key prevValue (sum64 key)
    setMultiKeysSingleValue T (fun i => mmapErr (i + 1)) b value keys

end

end OnDemand

/-! ### Calls -/

/-- A call of a method of a bucket, with the errors of the system calls it makes. -/
inductive Call where
  | set (mmapErr : Option String) (k v : List UInt8) (h : UInt64)
  | setMulti (mmapErr : ℕ → Option String) (keys values : List (List UInt8))
  | setMultiKeysSingleValue (mmapErr : ℕ → Option String) (keys : List (List UInt8))
    (value : List UInt8)
  | get (dst k : List UInt8) (h : UInt64) (returnDst : Bool)
  | del (h : UInt64)
  | reset

/-- What a call returns. -/
inductive Answer where
  | set (err : Option String)
  | got (dst : List UInt8) (found : Bool)
  | done
  deriving DecidableEq

/-- `SetMulti` is given a value for each key. -/
def Call.Supplied : Call → Prop
  | .setMulti _ keys values => keys.length ≤ values.length
  | _ => True

/-- Every system call succeeds. -/
def Call.Mapped : Call → Prop
  | .set mmapErr _ _ _ => mmapErr = none
  | .setMulti mmapErr _ _ => ∀ i, mmapErr i = none
  | .setMultiKeysSingleValue mmapErr _ _ => ∀ i, mmapErr i = none
  | _ => True

namespace OnDemand

/-- One call; `none` is a panic. -/
def call (T : OnDemand) (sum64 : List UInt8 → UInt64) (b : Bucket) : Call → Option (Bucket × Answer)
  | .set mmapErr k v h => (T.set mmapErr b k v h).map (Prod.map id .set)
  | .setMulti mmapErr keys values => (T.setMulti sum64 mmapErr b keys values).map (·, .done)
  | .setMultiKeysSingleValue mmapErr keys value =>
    (T.setMultiKeysSingleValue sum64 mmapErr b value keys).map (·, .done)
  | .get dst k h returnDst => (b.get dst k h returnDst).map fun p => (b, .got p.1 p.2)
  | .del h => some (b.del h, .done)
  | .reset => some (b.reset, .done)

/-- A bucket as a machine that answers calls; after a panic there is no bucket and no answer. -/
def machine (T : OnDemand) (sum64 : List UInt8 → UInt64) :
    Mealy (Option Bucket) Call (Option Answer) :=
  ⟨fun s c => let r := s.bind (T.call sum64 · c); (r.map Prod.fst, r.map Prod.snd)⟩

/-! ### The first pass -/

theorem newItems_lt_iff (T : OnDemand) (b : Bucket) :
    T.newItems b < b.mapSize ↔
      ∃ h v, b.m h = some v ∧ T.counts (wordGen v) (wordIdx v) b.bGen b.idx = false := by
  unfold newItems Bucket.mapSize
  constructor
  · intro hlt
    by_contra hall
    push Not at hall
    refine hlt.ne (congrArg Finset.card (Finset.filter_congr fun h _ => ?_))
    cases hm : b.m h with
    | none => simp
    | some v => simpa using hall h v hm
  · rintro ⟨h, v, hm, hcounts⟩
    refine Finset.card_lt_card ((Finset.ssubset_iff_of_subset ?_).2 ⟨h, ?_, ?_⟩)
    · intro h' hh'
      have hany := (Finset.mem_filter.1 hh').2
      refine Finset.mem_filter.2 ⟨Finset.mem_univ _, ?_⟩
      cases hm' : b.m h' with
      | none => simp [hm'] at hany
      | some v' => rfl
    · simp [hm]
    · simp [hm, hcounts]

theorem cleanLockedMap_chunks (T : OnDemand) (b : Bucket) :
    (T.cleanLockedMap b).chunks = b.chunks := by
  unfold cleanLockedMap
  split_ifs <;> rfl

/-- Where the first pass counts what the second one keeps, the map loses what is not kept. -/
theorem cleanLockedMap_unallocated (b : Bucket) :
    unallocated.cleanLockedMap b = b.cleanLockedMap bucketUnallocated := by
  unfold cleanLockedMap
  split_ifs with hlt
  · rfl
  · rw [newItems_lt_iff] at hlt
    push Not at hlt
    have hm : (b.cleanLockedMap bucketUnallocated).m = b.m := by
      funext h
      cases hm : b.m h with
      | none => simp [Bucket.cleanLockedMap, hm]
      | some v =>
        have hcounts := hlt h v hm
        rw [Ne, Bool.not_eq_false] at hcounts
        have hkeeps : bucketUnallocated.keeps (wordGen v) (wordIdx v) b.bGen b.idx = true := hcounts
        simp [Bucket.cleanLockedMap, hm, hkeeps]
    exact congrArg (fun m => { b with m := m }) hm.symm

theorem store_eq_map (kind : Kind) (b : Bucket) (k v : List UInt8) (h : UInt64) (chunk : Slice)
    (idx chunkIdx : ℕ) (needClean : Bool) :
    b.store kind k v h chunk idx chunkIdx needClean =
      (b.store kind k v h chunk idx chunkIdx false).map fun b =>
        if needClean then b.cleanLockedMap kind else b := by
  unfold Bucket.store
  simp only [Option.bind_eq_bind, Option.map_bind, Function.comp_def, Option.map_some,
    Bool.false_eq_true, if_false]

/-- **For `bucketUnallocated` the first pass makes no difference.** -/
theorem set_unallocated (mmapErr : Option String) (b : Bucket) (k v : List UInt8) (h : UInt64) :
    unallocated.set mmapErr b k v h = b.set bucketUnallocated mmapErr k v h := by
  unfold set Bucket.set
  simp only [kind, Option.bind_eq_bind, cleanLockedMap_unallocated]
  split_ifs with hbig hlong
  · rfl
  · rfl
  · refine Option.bind_congr fun s _ => Option.bind_congr fun r _ => ?_
    cases r with
    | error err => rfl
    | ok p =>
      simp only [store_eq_map _ _ _ _ _ _ _ _ s.2.2.2]
      rw [Option.bind_map]
      rfl

/-! ### Refinement -/

theorem kind_sound (T : OnDemand) : T.kind.Sound := by
  cases T with
  | unallocated => exact bucketUnallocated_sound
  | trimmed => exact ⟨bucketUnallocated_sound.keeps_live, bucketUnallocated_sound.keeps_near⟩

/-- What is counted is of the current generation or of the one before. -/
theorem counts_near {T : OnDemand} {gen idx bGen bIdx : ℕ}
    (h : T.counts gen idx bGen bIdx = true) :
    (gen + 1 = bGen ∨ gen = maxGen ∧ bGen = 1) ∨ gen = bGen := by
  cases T with
  | unallocated => exact (of_decide_eq_true h).imp And.left And.left
  | trimmed => exact (of_decide_eq_true h).imp (Or.imp_right And.left) And.left

/-- The errors of `Set`. -/
inductive SetError (T : OnDemand) (mmapErr : Option String) (k v : List UInt8) : String → Prop
  | tooBig : chunkSize ≤ entryLen k v → SetError T mmapErr k v
      (T.kind.name ++ "too big key or value (key " ++ toString k.length ++ ", value " ++
        toString v.length ++ ") max " ++ toString (2 ^ maxValueSizeLog))
  | tooLong : chunkSize ≤ entryLen k v → SetError T mmapErr k v
      ("key, value, and k-v length " ++ toString (entryLen k v) ++
        " bytes doesn't fit to a chunk " ++ toString chunkSize ++ " bytes")
  | mmap (bytes : ℕ) (err : String) : mmapErr = some err → SetError T mmapErr k v
      ("cannot allocate chunk: " ++
        ("cannot allocate " ++ toString bytes ++ " bytes via mmap: " ++ err))

theorem set_too_long (T : OnDemand) (mmapErr : Option String) (b : Bucket) {k v : List UInt8}
    (h : UInt64) (hlong : chunkSize ≤ entryLen k v) :
    ∃ err, T.set mmapErr b k v h = some (b, some err) ∧ SetError T mmapErr k v err := by
  unfold set
  simp only [kvLen_eq]
  split_ifs
  · exact ⟨_, rfl, .tooBig hlong⟩
  · exact ⟨_, rfl, .tooLong hlong⟩

end OnDemand

section

variable {b : Bucket} {a : Spec} {k v : List UInt8} {s : Slot}

theorem Refines.cleanOnDemand (T : OnDemand) (h : Refines 2 b a) :
    Refines 1 (T.cleanLockedMap b) a := by
  unfold OnDemand.cleanLockedMap
  split_ifs with hlt
  · exact h.cleanLockedMap T.kind_sound
  · -- every entry has been counted
    rw [OnDemand.newItems_lt_iff] at hlt
    push Not at hlt
    refine ⟨h.owned, h.bound, h.wf, h.idx, h.gen, h.used, h.filled, ?_, h.live⟩
    intro h' w hw
    have hcounts := hlt h' w hw
    rw [Ne, Bool.not_eq_false] at hcounts
    obtain ⟨e, he, rfl, hage⟩ := h.word h' w hw
    exact ⟨e, he, rfl, h.age_le_one he hage (OnDemand.counts_near hcounts)⟩

/-- `Set` of a pair that is not too long: the record is written, and the map is cleaned if a new
generation begins; or memory cannot be mapped. -/
theorem Refines.set_eq (T : OnDemand) (h : Refines 1 b a) (mmapErr : Option String) (hash : UInt64)
    (hfit : entryLen k v < chunkSize)
    (hplace : a.cur.place chunkSize b.chunks.length (entryLen k v) = s) :
    (∃ (b' : Bucket) (c : Slice), Ready b a k v s b' c ∧ T.set mmapErr b k v hash =
        some (if decide (s.gen ≠ a.cur.gen) then
          T.cleanLockedMap (b'.stored k v hash c s.off (s.off / chunkSize))
          else b'.stored k v hash c s.off (s.off / chunkSize), none)) ∨
      ∃ err, T.set mmapErr b k v hash = some (b, some err) ∧ T.SetError mmapErr k v err ∧
        mmapErr ≠ none ∧ b.chunks[s.off / chunkSize]? = some none := by
  obtain ⟨b₁, hseek, ⟨b₂, c, hopen, hready⟩ | ⟨rfl, hnone, bytes, err, rfl, hopen⟩⟩ :=
    h.ready mmapErr hfit hplace
  · refine Or.inl ⟨b₂, c, hready, ?_⟩
    unfold OnDemand.set
    simp only [kvLen_eq]
    rw [if_neg (not_too_big hfit), if_neg hfit.not_ge]
    simp only [Option.bind_eq_bind, hseek, Option.bind_some, hopen]
    rw [Bucket.store_eq T.kind hready.size hready.fits]
    rfl
  · refine Or.inr ⟨_, ?_, .mmap bytes err rfl, by simp, hnone⟩
    unfold OnDemand.set
    simp only [kvLen_eq]
    rw [if_neg (not_too_big hfit), if_neg hfit.not_ge]
    simp only [Option.bind_eq_bind, hseek, Option.bind_some, hopen]

/-- **What `Set` does**: it writes the record where the map does, or fails and leaves the bucket as
it is. -/
theorem Refines.setOnDemand (T : OnDemand) (h : Refines 1 b a) (mmapErr : Option String)
    (k v : List UInt8) (hash : UInt64) :
    (∃ b', T.set mmapErr b k v hash = some (b', none) ∧ entryLen k v < chunkSize ∧
        b'.chunks.length = b.chunks.length ∧
        Refines 1 b' (a.insert chunkSize b.chunks.length hash k v (entryLen k v))) ∨
      ∃ err, T.set mmapErr b k v hash = some (b, some err) ∧ T.SetError mmapErr k v err ∧
        (chunkSize ≤ entryLen k v ∨ mmapErr ≠ none) := by
  by_cases hfit : entryLen k v < chunkSize
  · have hcases := Slot.place_cases chunkSize b.chunks.length a.cur (entryLen k v)
    generalize hplace : a.cur.place chunkSize b.chunks.length (entryLen k v) = s at hcases
    obtain ⟨b', c, hready, hset⟩ | ⟨err, hset, herr, hmmap, -⟩ :=
      h.set_eq T mmapErr hash hfit hplace
    · have hlength : (b'.stored k v hash c s.off (s.off / chunkSize)).chunks.length =
          b.chunks.length := (List.length_set ..).trans hready.length
      by_cases hgen : s.gen = a.cur.gen
      · rw [if_neg (by simpa using hgen)] at hset
        exact Or.inl ⟨_, hset, hfit, hlength, hready.refines hash 1 (by omega)⟩
      · have hwrap : s.gen = a.cur.gen + 1 := by
          rcases hcases with ⟨heq, -⟩ | heq
          · exact absurd heq hgen
          · rw [heq]
        rw [if_pos (by simpa using hgen)] at hset
        refine Or.inl ⟨_, hset, hfit, ?_, (hready.refines hash 2 (by omega)).cleanOnDemand T⟩
        rw [OnDemand.cleanLockedMap_chunks, hlength]
    · exact Or.inr ⟨err, hset, herr, Or.inr hmmap⟩
  · obtain ⟨err, hset, herr⟩ := T.set_too_long mmapErr b hash (not_lt.1 hfit)
    exact Or.inr ⟨err, hset, herr, Or.inl (not_lt.1 hfit)⟩

/-! ### Calls -/

/-- What a call makes of the map, in a ring of `n` chunks, when memory can be mapped. -/
def specCall (n : ℕ) (sum64 : List UInt8 → UInt64) (a : Spec) : Call → Spec
  | .set _ k v h => write n a h k v
  | .setMulti _ keys values => (keys.zip values).foldl (fun a p => write n a (sum64 p.1) p.1 p.2) a
  | .setMultiKeysSingleValue _ keys value =>
    keys.foldl (fun a k => write n a (sum64 k) k (value ++ (a.find (sum64 k) k).getD [])) a
  | .get _ _ _ _ => a
  | .del h => a.erase h
  | .reset => .empty

/-- What a call answers, when memory can be mapped. -/
def Expected (a : Spec) : Call → Answer → Prop
  | .set _ k v _, r => ∃ err, r = .set err ∧ (err = none ↔ entryLen k v < chunkSize)
  | .get dst k h returnDst, r => r = match a.find h k with
    | some v => .got (if returnDst then dst ++ v else dst) true
    | none => .got dst false
  | _, r => r = .done

variable {sum64 : List UInt8 → UInt64}

theorem Refines.writeOnDemand (T : OnDemand) (h : Refines 1 b a) (mmapErr : Option String)
    (k v : List UInt8) (hash : UInt64) :
    ∃ b' err a', T.set mmapErr b k v hash = some (b', err) ∧
      b'.chunks.length = b.chunks.length ∧ Refines 1 b' a' ∧
      (mmapErr = none → a' = Cache.write b.chunks.length a hash k v ∧
        (err = none ↔ entryLen k v < chunkSize)) := by
  obtain ⟨b', hset, hfit, hlen, h'⟩ | ⟨err, hset, -, hwhy⟩ := h.setOnDemand T mmapErr k v hash
  · refine ⟨b', none, _, hset, hlen, h', fun _ => ⟨?_, iff_of_true rfl hfit⟩⟩
    rw [Cache.write, if_pos hfit]
  · refine ⟨b, some err, a, hset, rfl, h, fun hmmap => ?_⟩
    have hlong := (hwhy.resolve_right (not_not.2 hmmap)).not_gt
    exact ⟨by rw [Cache.write, if_neg hlong], iff_of_false (by simp) hlong⟩

theorem Refines.setMultiOnDemand (T : OnDemand) (h : Refines 1 b a) {mmapErr : ℕ → Option String}
    {keys values : List (List UInt8)} (hlen : keys.length ≤ values.length) :
    ∃ b' a', T.setMulti sum64 mmapErr b keys values = some b' ∧
      b'.chunks.length = b.chunks.length ∧ Refines 1 b' a' ∧
      ((∀ i, mmapErr i = none) →
        a' = specCall b.chunks.length sum64 a (.setMulti mmapErr keys values)) := by
  induction keys generalizing b a values mmapErr with
  | nil => exact ⟨b, a, rfl, rfl, h, fun _ => rfl⟩
  | cons k keys ih =>
    obtain _ | ⟨v, values⟩ := values
    · simp at hlen
    · obtain ⟨b₁, err, a₁, hset, hlen₁, h₁, ha₁⟩ := h.writeOnDemand T (mmapErr 0) k v (sum64 k)
      have hle : keys.length ≤ values.length := by simpa using hlen
      obtain ⟨b', a', hmulti, hlen', h', ha'⟩ := @ih b₁ a₁ h₁ (fun i => mmapErr (i + 1)) values hle
      refine ⟨b', a', ?_, hlen'.trans hlen₁, h', fun hmmap => ?_⟩
      · simp only [OnDemand.setMulti, Option.bind_eq_bind, hset, Option.bind_some]
        exact hmulti
      · rw [ha' fun i => hmmap (i + 1), (ha₁ (hmmap 0)).1, hlen₁]
        rfl

theorem Refines.setMultiKeysOnDemand (T : OnDemand) (h : Refines 1 b a)
    {mmapErr : ℕ → Option String} (keys : List (List UInt8)) (value : List UInt8) :
    ∃ b' a', T.setMultiKeysSingleValue sum64 mmapErr b value keys = some b' ∧
      b'.chunks.length = b.chunks.length ∧ Refines 1 b' a' ∧
      ((∀ i, mmapErr i = none) →
        a' = specCall b.chunks.length sum64 a (.setMultiKeysSingleValue mmapErr keys value)) := by
  induction keys generalizing b a mmapErr with
  | nil => exact ⟨b, a, rfl, rfl, h, fun _ => rfl⟩
  | cons k keys ih =>
    have hget : ∃ found, b.get value k (sum64 k) true =
        some (value ++ (a.find (sum64 k) k).getD [], found) := by
      rw [h.get]
      cases a.find (sum64 k) k with
      | none => exact ⟨false, by simp⟩
      | some v => exact ⟨true, rfl⟩
    obtain ⟨found, hget⟩ := hget
    obtain ⟨b₁, err, a₁, hset, hlen₁, h₁, ha₁⟩ := h.writeOnDemand T (mmapErr 0) k
      (value ++ (a.find (sum64 k) k).getD []) (sum64 k)
    obtain ⟨b', a', hmulti, hlen', h', ha'⟩ := @ih b₁ a₁ h₁ fun i => mmapErr (i + 1)
    refine ⟨b', a', ?_, hlen'.trans hlen₁, h', fun hmmap => ?_⟩
    · simp only [OnDemand.setMultiKeysSingleValue, Option.bind_eq_bind, hget, Option.bind_some,
        hset]
      exact hmulti
    · rw [ha' fun i => hmmap (i + 1), (ha₁ (hmmap 0)).1, hlen₁]
      rfl

/-- **What a call does**: it keeps the bucket related to a map and does not panic; when memory can
be mapped, the map and the answer are those of the call. -/
theorem Refines.call (T : OnDemand) (h : Refines 1 b a) {c : Call} (hc : c.Supplied) :
    ∃ b' r a', T.call sum64 b c = some (b', r) ∧ b'.chunks.length = b.chunks.length ∧
      Refines 1 b' a' ∧
      (c.Mapped → a' = specCall b.chunks.length sum64 a c ∧ Expected a c r) := by
  cases c with
  | set mmapErr k v hash =>
    obtain ⟨b', err, a', hset, hlen, h', ha'⟩ := h.writeOnDemand T mmapErr k v hash
    refine ⟨b', .set err, a', ?_, hlen, h', fun hmmap => ⟨(ha' hmmap).1, err, rfl, (ha' hmmap).2⟩⟩
    rw [OnDemand.call, hset]
    rfl
  | setMulti mmapErr keys values =>
    obtain ⟨b', a', hset, hlen, h', ha'⟩ := @setMultiOnDemand b a sum64 T h mmapErr keys values hc
    refine ⟨b', .done, a', ?_, hlen, h', fun hmmap => ⟨ha' hmmap, rfl⟩⟩
    rw [OnDemand.call, hset, Option.map_some]
  | setMultiKeysSingleValue mmapErr keys value =>
    obtain ⟨b', a', hset, hlen, h', ha'⟩ :=
      @setMultiKeysOnDemand b a sum64 T h mmapErr keys value
    refine ⟨b', .done, a', ?_, hlen, h', fun hmmap => ⟨ha' hmmap, rfl⟩⟩
    rw [OnDemand.call, hset, Option.map_some]
  | get dst k hash returnDst =>
    refine ⟨b, _, a, by rw [OnDemand.call, h.get, Option.map_some], rfl, h, fun _ => ⟨rfl, ?_⟩⟩
    simp only [Expected]
    cases a.find hash k <;> rfl
  | del hash => exact ⟨b.del hash, .done, _, rfl, rfl, h.del hash, fun _ => ⟨rfl, rfl⟩⟩
  | reset =>
    refine ⟨b.reset, .done, .empty, rfl, ?_, refines_reset h.owned h.length_pos h.bound,
      fun _ => ⟨rfl, rfl⟩⟩
    simp [Bucket.reset, Bucket.putChunks]

/-- **Whatever is done, a bucket stays related to a map** and no access is out of bounds. -/
theorem Refines.run (T : OnDemand) (h : Refines 1 b a) {calls : List Call}
    (hcalls : ∀ c ∈ calls, c.Supplied) :
    ∃ b' a', (T.machine sum64).run (some b) calls = some b' ∧
      b'.chunks.length = b.chunks.length ∧ Refines 1 b' a' := by
  refine Mealy.run_invariant (P := fun t => ∃ b' a', t = some b' ∧
    b'.chunks.length = b.chunks.length ∧ Refines 1 b' a') ?_ ⟨b, a, rfl, rfl, h⟩ hcalls
  rintro _ c ⟨b', a', rfl, hlen, h'⟩ hc
  obtain ⟨b'', r, a'', hcall, hlen', h'', -⟩ := @call b' a' sum64 T h' c hc
  refine ⟨b'', a'', ?_, hlen'.trans hlen, h''⟩
  simp [OnDemand.machine, hcall]

end

end Cache

end MerkleService
