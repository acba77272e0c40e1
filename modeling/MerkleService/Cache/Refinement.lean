import MerkleService.Cache.Chunks
import MerkleService.Data.RingMap

/-!
# A bucket is a bounded map

The buckets with allocation on demand refine the map over a ring (`RingMap`), in which generations
are natural numbers and the last record of each hash is remembered for ever.  In the code a
generation is a number of 24 bits that starts over, and what the map of a bucket forgets has been
written over.

* `Refines` : the relation between a bucket and a map.
* `Refines.get` : **`Get` finds what the map finds**.
* `Refines.set` : `Set` writes the record where the map does, or refuses it when it is too long.
-/

namespace MerkleService

namespace Cache

/-- The abstract map: from hashes to pairs of a key and a value. -/
abbrev Spec := RingMap UInt64 (List UInt8) (List UInt8)

/-- The length of a record. -/
def entryLen (k v : List UInt8) : ℕ := (Bucket.encode k v).length

/-- The word for a slot. -/
def slotWord (s : Slot) : ℕ := genCycle maxGen s.gen * 2 ^ bucketSizeBits + s.off

theorem genCycle_lt (g : ℕ) : genCycle maxGen g < 2 ^ genSizeBits := by
  have hle := genCycle_le (N := maxGen) (by decide) g
  have hlt : maxGen < 2 ^ genSizeBits := by decide
  omega

/-- A word is the word for a slot when its generation is that of the slot. -/
theorem pack_eq_slotWord {s : Slot} {gen : ℕ} (hoff : s.off < 2 ^ bucketSizeBits)
    (hgen : gen % 2 ^ genSizeBits = genCycle maxGen s.gen) : pack s.off gen = slotWord s := by
  rw [pack_eq hoff, hgen, slotWord]

theorem slotWord_eq_pack {s : Slot} (hoff : s.off < 2 ^ bucketSizeBits) :
    slotWord s = pack s.off (genCycle maxGen s.gen) :=
  (pack_eq_slotWord hoff (Nat.mod_eq_of_lt (genCycle_lt _))).symm

theorem wordGen_slotWord {s : Slot} (hoff : s.off < 2 ^ bucketSizeBits) :
    wordGen (slotWord s) = genCycle maxGen s.gen := by
  rw [slotWord_eq_pack hoff, wordGen_pack hoff, Nat.mod_eq_of_lt (genCycle_lt _)]

theorem wordIdx_slotWord {s : Slot} (hoff : s.off < 2 ^ bucketSizeBits) :
    wordIdx (slotWord s) = s.off := by
  rw [slotWord_eq_pack hoff, wordIdx_pack hoff]

theorem slotWord_pos (s : Slot) : 0 < slotWord s := by
  have := Nat.mul_pos (genCycle_pos (N := maxGen) s.gen) (Nat.two_pow_pos bucketSizeBits)
  unfold slotWord
  omega

/-- The bytes of the record are where its slot says. -/
def Bucket.Holds (b : Bucket) (e : RingEntry (List UInt8) (List UInt8)) : Prop :=
  ∃ c arr, b.chunks[e.slot.off / chunkSize]? = some (some c) ∧ b.mem[c.array]? = some arr ∧
    arr.OccursAt (e.slot.off % chunkSize) (Bucket.encode e.key e.value)

/-- **A bucket and the map it stands for.**  Words may be left in the bucket that are up to `age`
generations old. -/
structure Refines (age : ℕ) (b : Bucket) (a : Spec) : Prop where
  owned : b.Owned
  /-- Offsets fit into words. -/
  bound : b.chunks.length * chunkSize ≤ 2 ^ bucketSizeBits
  wf : a.WellFormed chunkSize b.chunks.length entryLen
  idx : b.idx = a.cur.off
  gen : b.gen % 2 ^ genSizeBits = genCycle maxGen a.cur.gen
  /-- The chunk in use ends at the write position. -/
  used : ∀ slot, b.chunks[b.idx / chunkSize]? = some slot →
    (slot.map Slice.len).getD 0 = b.idx % chunkSize
  /-- The chunks before it have been allocated. -/
  filled : ∀ i < b.idx / chunkSize, ∃ c, b.chunks[i]? = some (some c)
  word : ∀ h w, b.m h = some w → ∃ e, a.last h = some e ∧ w = slotWord e.slot ∧
    a.cur.gen ≤ e.slot.gen + age
  live : ∀ h e, a.last h = some e → a.cur.Live e.slot → b.m h = some (slotWord e.slot) ∧ b.Holds e

variable {b : Bucket} {a : Spec}

theorem Refines.length_pos {age : ℕ} (h : Refines age b a) : 0 < b.chunks.length :=
  (Nat.zero_le _).trans_lt h.wf.cur

theorem Refines.off_lt {age : ℕ} (h : Refines age b a) {hash : UInt64}
    {e : RingEntry (List UInt8) (List UInt8)} (he : a.last hash = some e) :
    e.slot.off < 2 ^ bucketSizeBits :=
  ((Nat.div_lt_iff_lt_mul (by decide)).1 (h.wf.fits hash e he).2).trans_le h.bound

/-! ### Get -/

theorem Refines.admits_iff (h : Refines 1 b a) {hash : UInt64}
    {e : RingEntry (List UInt8) (List UInt8)} (he : a.last hash = some e)
    (hage : a.cur.gen ≤ e.slot.gen + 1) :
    b.admits (wordGen (slotWord e.slot)) (wordIdx (slotWord e.slot)) = true ↔
      a.cur.Live e.slot := by
  have hbefore := h.wf.before hash e he
  have hlen : 4 ≤ entryLen e.key e.value := by
    rw [entryLen, Bucket.length_encode]
    omega
  have hnear : e.slot.gen = a.cur.gen ∨ e.slot.gen + 1 = a.cur.gen := by
    unfold Slot.Before at hbefore
    omega
  have hmax : 2 ≤ maxGen := by decide
  have hsame := genCycle_eq_iff hmax hnear
  have hprev := genCycle_succ_iff hmax hnear
  rw [wordGen_slotWord (h.off_lt he), wordIdx_slotWord (h.off_lt he)]
  unfold Bucket.admits Slot.Live
  unfold Slot.Before at hbefore
  rw [decide_eq_true_iff, Bucket.bGen_eq, h.gen, h.idx, hsame, ← and_assoc, ← or_and_right, hprev]
  omega

theorem readLen_eq {n : ℕ} (hn : n < 2 ^ 16) (buf rest : List UInt8) :
    Bucket.readLen (buf ++ UInt8.ofNat (n >>> 8) :: UInt8.ofNat n :: rest) buf.length = some n := by
  have hhigh : (UInt8.ofNat (n >>> 8)).toNat = n / 2 ^ 8 := by
    rw [UInt8.toNat_ofNat', Nat.shiftRight_eq_div_pow]
    omega
  have hlow : (UInt8.ofNat n).toNat = n % 2 ^ 8 := UInt8.toNat_ofNat'
  have hfst : (buf ++ UInt8.ofNat (n >>> 8) :: UInt8.ofNat n :: rest)[buf.length]? =
      some (UInt8.ofNat (n >>> 8)) := by
    simp
  have hsnd : (buf ++ UInt8.ofNat (n >>> 8) :: UInt8.ofNat n :: rest)[buf.length + 1]? =
      some (UInt8.ofNat n) := by
    simp
  unfold Bucket.readLen
  simp only [Option.bind_eq_bind, hfst, hsnd, Option.bind_some, hhigh, hlow]
  rw [← Nat.shiftLeft_add_eq_or_of_lt (Nat.mod_lt _ (by decide)), Nat.shiftLeft_eq, Nat.mul_comm,
    Nat.div_add_mod]

theorem Bucket.slice_of_occursAt {c : Slice} {arr bs : List UInt8} {low : ℕ}
    (harr : b.mem[c.array]? = some arr) (hocc : arr.OccursAt low bs)
    (hle : low + bs.length ≤ chunkSize) :
    b.slice (some c) low (low + bs.length) = some bs := by
  unfold Bucket.slice
  simp only
  rw [if_pos ⟨Nat.le_add_right _ _, hle⟩, harr, Option.map_some, Nat.add_sub_cancel_left,
    hocc.take_drop]

theorem Bucket.getAt_of_holds {e : RingEntry (List UInt8) (List UInt8)} (h : b.Holds e)
    (hfits : (e.slot.off + entryLen e.key e.value) / chunkSize = e.slot.off / chunkSize)
    (dst k : List UInt8) (returnDst : Bool) :
    b.getAt dst k returnDst e.slot.off =
      some (if k = e.key then (if returnDst then dst ++ e.value else dst, true)
        else (dst, false)) := by
  obtain ⟨c, arr, hchunk, harr, hocc⟩ := h
  obtain ⟨hlt, -⟩ := List.getElem?_eq_some_iff.1 hchunk
  have hlen := Bucket.length_encode e.key e.value
  have hend : e.slot.off % chunkSize + (4 + e.key.length + e.value.length) < chunkSize := by
    have hsize : chunkSize = 1024 := rfl
    rw [entryLen, hlen, hsize] at hfits
    rw [hsize]
    omega
  have hsize : chunkSize = 1024 := rfl
  have hbuf : (Bucket.kvLenBuf e.key e.value).length = 4 := rfl
  rw [Bucket.encode, List.occursAt_append, List.occursAt_append, List.length_append, hbuf] at hocc
  obtain ⟨⟨hoccBuf, hoccKey⟩, hoccValue⟩ := hocc
  have hslice : b.slice (some c) (e.slot.off % chunkSize) (e.slot.off % chunkSize + 4) =
      some (Bucket.kvLenBuf e.key e.value) := slice_of_occursAt harr hoccBuf (by omega)
  have hslice' := slice_of_occursAt harr hoccKey (by omega)
  have hslice'' := slice_of_occursAt harr hoccValue (by omega)
  rw [← Nat.add_assoc] at hslice''
  have hkeyLen : Bucket.readLen (Bucket.kvLenBuf e.key e.value) 0 = some e.key.length :=
    readLen_eq (by omega) [] _
  have hvalLen : Bucket.readLen (Bucket.kvLenBuf e.key e.value) 2 = some e.value.length :=
    readLen_eq (by omega) [_, _] []
  unfold Bucket.getAt
  simp only [Option.bind_eq_bind, hchunk, Option.bind_some]
  rw [if_neg hlt.not_ge, if_neg (by omega), hslice]
  simp only [Option.bind_some, hkeyLen, hvalLen]
  rw [if_neg (by omega), hslice']
  simp only [Option.bind_some, hslice'']
  split_ifs <;> rfl

/-- **`Get` finds what the map finds**, and does not panic. -/
theorem Refines.get (h : Refines 1 b a) (dst k : List UInt8) (hash : UInt64) (returnDst : Bool) :
    b.get dst k hash returnDst = some (match a.find hash k with
      | some v => (if returnDst then dst ++ v else dst, true)
      | none => (dst, false)) := by
  unfold Bucket.get
  cases hm : b.m hash with
  | none =>
    -- a live record would be in the map of the bucket
    have hfind : a.find hash k = none := by
      rw [Option.eq_none_iff_forall_ne_some]
      intro v hv
      obtain ⟨e, he, -, hlive, -⟩ := RingMap.find_eq_some_iff.1 hv
      simp [(h.live hash e he hlive).1] at hm
    rw [hfind]
    rfl
  | some w =>
    obtain ⟨e, he, rfl, hage⟩ := h.word hash w hm
    have hadmits := h.admits_iff he hage
    have hfind : a.find hash k =
        if e.key = k ∧ a.cur.Live e.slot then some e.value else none := by
      rw [RingMap.find, he, Option.bind_some]
    simp only [Option.getD_some, slotWord_pos, if_true]
    by_cases hlive : a.cur.Live e.slot
    · rw [if_pos (hadmits.2 hlive), wordIdx_slotWord (h.off_lt he),
        Bucket.getAt_of_holds (h.live hash e he hlive).2 (h.wf.fits hash e he).1, hfind]
      simp only [hlive, and_true, eq_comm (a := k)]
      split_ifs <;> rfl
    · rw [if_neg (mt hadmits.1 hlive), hfind, if_neg fun hc => hlive hc.2]

/-! ### Set -/

theorem nextGen_mod (gen : ℕ) : Bucket.nextGen gen % 2 ^ genSizeBits =
    if gen % 2 ^ genSizeBits = maxGen then 1 else gen % 2 ^ genSizeBits + 1 := by
  have hbits : genSizeBits = 24 := rfl
  have hmax : maxGen = 2 ^ 24 - 1 := rfl
  unfold Bucket.nextGen
  simp only [Nat.and_two_pow_sub_one_eq_mod, hbits, hmax]
  split_ifs <;> omega

theorem Bucket.Owned.congr {b' : Bucket} (h : b.Owned) (harrays : b'.arrays = b.arrays)
    (hfree : b'.freeChunks = b.freeChunks) (hmem : b'.mem = b.mem)
    (halloc : b'.allocatedChunks = b.allocatedChunks)
    (hslab : b'.maxSlabChunks = b.maxSlabChunks) (hlen : b'.chunks.length = b.chunks.length) :
    b'.Owned where
  perm := by rw [harrays, hfree, hmem]; exact h.perm
  allocated := by rw [halloc, hmem]; exact h.allocated
  le := by rw [hmem, hlen]; exact h.le
  size := hmem ▸ h.size
  slab := hslab ▸ h.slab
  bound := hlen ▸ h.bound

/-- The bucket `b'` is ready for a record at slot `s`. -/
structure Sought (b b' : Bucket) (s : Slot) : Prop where
  owned : b'.Owned
  mem : b'.mem = b.mem
  m : b'.m = b.m
  length : b'.chunks.length = b.chunks.length
  array : ∀ (i : ℕ) (c : Slice), b.chunks[i]? = some (some c) →
    ∃ c' : Slice, b'.chunks[i]? = some (some c') ∧ c'.array = c.array
  gen : b'.gen % 2 ^ genSizeBits = genCycle maxGen s.gen
  used : ∀ slot, b'.chunks[s.off / chunkSize]? = some slot →
    (slot.map Slice.len).getD 0 = s.off % chunkSize
  /-- Nothing has changed when the chunk has not been allocated yet. -/
  same : b'.chunks[s.off / chunkSize]? = some none → b' = b

theorem Sought.of_cut (h : b.Owned) {i : ℕ} {slot : Option Slice}
    (hslot : b.chunks[i]? = some slot) {s : Slot} (hoff : s.off = i * chunkSize) {b' : Bucket}
    (hb' : b'.chunks = b.chunks.set i (slot.map fun c => { c with len := 0 }))
    (hmem : b'.mem = b.mem) (hm : b'.m = b.m) (hfree : b'.freeChunks = b.freeChunks)
    (halloc : b'.allocatedChunks = b.allocatedChunks)
    (hslab : b'.maxSlabChunks = b.maxSlabChunks)
    (hgen : b'.gen % 2 ^ genSizeBits = genCycle maxGen s.gen)
    (hsame : slot = none → b' = b) : Sought b b' s := by
  have hsize : 0 < chunkSize := by decide
  have hi := (List.getElem?_eq_some_iff.1 hslot).1
  have hlen : b'.chunks.length = b.chunks.length := by rw [hb', List.length_set]
  refine ⟨h.congr ?_ hfree hmem halloc hslab hlen, hmem, hm, hlen, ?_, hgen, ?_, ?_⟩
  · rw [Bucket.arrays, hb']
    exact List.filterMap_set_same hslot (by cases slot <;> rfl)
  · intro j c hc
    rw [hb']
    by_cases hij : i = j
    · subst hij
      obtain rfl : slot = some c := Option.some.inj (hslot.symm.trans hc)
      exact ⟨{ c with len := 0 }, List.getElem?_set_self hi, rfl⟩
    · exact ⟨c, by rw [List.getElem?_set_ne hij]; exact hc, rfl⟩
  · rw [hoff, Nat.mul_div_cancel _ hsize, Nat.mul_mod_left, hb', List.getElem?_set_self hi]
    rintro _ ⟨⟩
    cases slot <;> rfl
  · rw [hoff, Nat.mul_div_cancel _ hsize, hb', List.getElem?_set_self hi]
    intro hnone
    exact hsame (by simpa using hnone)

/-- When a record does not fit into the chunk in use, this chunk and those before have been
allocated. -/
theorem Refines.allocated (h : Refines 1 b a) {len : ℕ} (hlen : len < chunkSize)
    (hcross : (a.cur.off + len) / chunkSize ≠ a.cur.off / chunkSize) :
    (a.cur.off + len) / chunkSize = a.cur.off / chunkSize + 1 ∧
      ∀ i ≤ a.cur.off / chunkSize, ∃ c, b.chunks[i]? = some (some c) := by
  obtain ⟨hnext, hmod⟩ := Slot.div_add_eq_succ hlen hcross
  refine ⟨hnext, fun i hi => ?_⟩
  rcases hi.lt_or_eq with hlt | rfl
  · exact h.filled i (h.idx ▸ hlt)
  · obtain ⟨slot, hslot⟩ : ∃ slot, b.chunks[a.cur.off / chunkSize]? = some slot :=
      ⟨_, List.getElem?_eq_getElem h.wf.cur⟩
    have hused := h.used slot (by rw [h.idx]; exact hslot)
    cases slot with
    | some c => exact ⟨c, hslot⟩
    | none =>
      rw [h.idx] at hused
      exact absurd hused.symm hmod

theorem Refines.seek (h : Refines 1 b a) {len : ℕ} (hlen : len < chunkSize) :
    ∃ b' : Bucket, b.seek len = some (b', (a.cur.place chunkSize b.chunks.length len).off,
        (a.cur.place chunkSize b.chunks.length len).off / chunkSize,
        decide ((a.cur.place chunkSize b.chunks.length len).gen ≠ a.cur.gen)) ∧
      Sought b b' (a.cur.place chunkSize b.chunks.length len) ∧
      ∀ i < (a.cur.place chunkSize b.chunks.length len).off / chunkSize,
        ∃ c, b.chunks[i]? = some (some c) := by
  have hsize : 0 < chunkSize := by decide
  have hn := h.length_pos
  have hmono : a.cur.off / chunkSize ≤ (a.cur.off + len) / chunkSize :=
    Nat.div_le_div_right (Nat.le_add_right _ _)
  unfold Bucket.seek
  simp only [h.idx, Option.bind_eq_bind]
  by_cases hsame : (a.cur.off + len) / chunkSize = a.cur.off / chunkSize
  · have hplace : a.cur.place chunkSize b.chunks.length len = a.cur := if_pos hsame
    rw [if_neg (by omega), hplace]
    refine ⟨b, by simp, ⟨h.owned, rfl, rfl, rfl, fun _ c hc => ⟨c, hc, rfl⟩, h.gen, ?_,
      fun _ => rfl⟩, ?_⟩
    · rw [← h.idx]
      exact h.used
    · rw [← h.idx]
      exact h.filled
  obtain ⟨hnext, hallocated⟩ := h.allocated hlen hsame
  rw [if_pos (by omega)]
  by_cases hroom : (a.cur.off + len) / chunkSize < b.chunks.length
  · -- the next chunk
    have hplace : a.cur.place chunkSize b.chunks.length len =
        ⟨a.cur.gen, (a.cur.off + len) / chunkSize * chunkSize⟩ := by
      rw [Slot.place, if_neg hsame, if_pos hroom]
    have hslot := List.getElem?_eq_getElem hroom
    rw [if_neg hroom.not_ge, hplace, hslot, Option.bind_some]
    simp only [Nat.mul_div_cancel _ hsize, ne_eq, not_true_eq_false, decide_false]
    refine ⟨_, rfl, .of_cut h.owned hslot rfl rfl rfl rfl rfl rfl rfl h.gen ?_, ?_⟩
    · intro hnone
      rw [hnone, Option.map_none, ← hnone, List.set_getElem_self, ← h.idx]
    · intro i hi
      exact hallocated i (by omega)
  · -- writing starts over
    have hplace : a.cur.place chunkSize b.chunks.length len = ⟨a.cur.gen + 1, 0⟩ := by
      rw [Slot.place, if_neg hsame, if_neg hroom]
    have hslot := List.getElem?_eq_getElem hn
    rw [if_pos (not_lt.1 hroom), hplace, hslot, Option.bind_some]
    simp only [Nat.zero_div, ne_eq, Nat.succ_ne_self, not_false_eq_true, decide_true]
    refine ⟨_, rfl, .of_cut h.owned hslot (Nat.zero_mul _).symm rfl rfl rfl rfl rfl rfl ?_ ?_,
      fun i hi => absurd hi (Nat.not_lt_zero i)⟩
    · rw [nextGen_mod, h.gen, genCycle_succ (by decide)]
    · intro hnone
      obtain ⟨c, hc⟩ := hallocated 0 (Nat.zero_le _)
      rw [hslot, hnone] at hc
      cases hc

section

variable {b₁ b₂ : Bucket} {s : Slot} {c : Slice} {k v : List UInt8} {hash : UInt64}

theorem Sought.len (hs : Sought b b₁ s) (ho : b₁.Opened b₂ (s.off / chunkSize) c) :
    c.len = s.off % chunkSize := by
  rcases ho.slot with hslot | ⟨hslot, hlen⟩
  · exact hs.used _ hslot
  · rw [hlen]
    exact hs.used _ hslot

theorem Sought.array_lt (ho : b₁.Opened b₂ (s.off / chunkSize) c)
    (hi : s.off / chunkSize < b₁.chunks.length) : c.array < b₂.mem.length :=
  ho.owned.lt (List.getElem?_set_self hi)

theorem owned_stored (ho : b₁.Opened b₂ (s.off / chunkSize) c)
    (hi : s.off / chunkSize < b₁.chunks.length) (hfit : c.len + entryLen k v ≤ chunkSize) :
    (b₂.stored k v hash c s.off (s.off / chunkSize)).Owned := by
  have hset := List.getElem?_set_self (a := some c) hi
  obtain ⟨hperm, halloc, hle, hsize, hslab, hbound⟩ := ho.owned
  have harrays : (b₂.stored k v hash c s.off (s.off / chunkSize)).arrays =
      (b₁.chunks.set (s.off / chunkSize) (some c)).filterMap (Option.map Slice.array) := by
    rw [Bucket.arrays, Bucket.stored, ho.grown.chunks, ← List.set_set (some c)]
    exact List.filterMap_set_same hset rfl
  refine ⟨?_, ?_, ?_, ?_, hslab, ?_⟩
  · rw [harrays]
    simpa [Bucket.stored, Bucket.arrays] using hperm
  · simpa [Bucket.stored] using halloc
  · simpa [Bucket.stored, ho.grown.chunks] using hle
  · intro arr harr
    obtain ⟨p, hp⟩ := List.mem_iff_getElem?.1 harr
    rw [Bucket.stored, List.getElem?_modify, Option.map_eq_map, Option.map_eq_some_iff] at hp
    obtain ⟨arr₀, hp, rfl⟩ := hp
    have hlen := hsize arr₀ (List.mem_of_getElem? hp)
    split_ifs
    · rw [List.length_splice (hlen ▸ hfit), hlen]
    · exact hlen
  · simpa [Bucket.stored, ho.grown.chunks] using hbound

theorem holds_stored_self (ho : b₁.Opened b₂ (s.off / chunkSize) c)
    (hi : s.off / chunkSize < b₁.chunks.length) (hlen : c.len = s.off % chunkSize)
    (hfit : c.len + entryLen k v ≤ chunkSize) :
    (b₂.stored k v hash c s.off (s.off / chunkSize)).Holds ⟨k, v, s⟩ := by
  obtain ⟨arr, harr⟩ : ∃ arr, b₂.mem[c.array]? = some arr :=
    ⟨_, List.getElem?_eq_getElem (Sought.array_lt ho hi)⟩
  have hsize := ho.owned.size arr (List.mem_of_getElem? harr)
  refine ⟨⟨c.array, c.len + entryLen k v⟩, arr.splice c.len (Bucket.encode k v), ?_, ?_, ?_⟩
  · exact List.getElem?_set_self (by rw [ho.grown.chunks]; exact hi)
  · simp [Bucket.stored, harr]
  · rw [← hlen]
    exact List.occursAt_splice (hsize ▸ hfit)

theorem holds_stored (hs : Sought b b₁ s) (ho : b₁.Opened b₂ (s.off / chunkSize) c)
    (hi : s.off / chunkSize < b₁.chunks.length)
    (hfit : (s.off + entryLen k v) / chunkSize = s.off / chunkSize)
    {e : RingEntry (List UInt8) (List UInt8)} (he : b.Holds e)
    (hdisj : e.slot.off + entryLen e.key e.value ≤ s.off ∨
      s.off + entryLen k v ≤ e.slot.off) :
    (b₂.stored k v hash c s.off (s.off / chunkSize)).Holds e := by
  have hlen := hs.len ho
  obtain ⟨c₀, arr, hc₀, harr, hocc⟩ := he
  obtain ⟨c₁, hc₁, harray⟩ := hs.array _ _ hc₀
  have harr₂ : b₂.mem[c₁.array]? = some arr := ho.grown.mem _ _ (by rw [hs.mem, harray, harr])
  have hsize := ho.owned.size arr (List.mem_of_getElem? harr₂)
  by_cases hsame : e.slot.off / chunkSize = s.off / chunkSize
  · -- in the chunk that is written to
    obtain rfl : c₁ = c := by
      rw [hsame] at hc₁
      rcases ho.slot with hslot | ⟨hslot, -⟩
      · exact Option.some.inj (Option.some.inj (hc₁.symm.trans hslot))
      · rw [hc₁] at hslot
        simp at hslot
    refine ⟨⟨c₁.array, c₁.len + entryLen k v⟩, arr.splice c₁.len (Bucket.encode k v), ?_, ?_, ?_⟩
    · rw [hsame]
      exact List.getElem?_set_self (by rw [ho.grown.chunks]; exact hi)
    · simp [Bucket.stored, harr₂]
    · have hend := Slot.mod_add_lt (by decide) hfit
      rw [← hlen] at hend
      refine hocc.splice (hsize ▸ hend.le) (hlen ▸ hdisj.imp ?_ ?_)
      · exact Slot.mod_add_le hsame
      · exact Slot.mod_add_le hsame.symm
  · -- in another chunk
    have hne : c₁.array ≠ c.array := by
      intro heq
      refine hsame (ho.owned.slot_unique (c := c₁) ?_ (List.getElem?_set_self hi) heq)
      exact (List.getElem?_set_ne (Ne.symm hsame)).trans hc₁
    refine ⟨c₁, arr, ?_, ?_, hocc⟩
    · rw [Bucket.stored, ho.grown.chunks]
      exact (List.getElem?_set_ne (Ne.symm hsame)).trans hc₁
    · simp [Bucket.stored, Ne.symm hne, harr₂]

/-- **A record is written.** -/
theorem Refines.stored {age : ℕ} (h : Refines 1 b a) (hfit : entryLen k v < chunkSize)
    (hplace : a.cur.place chunkSize b.chunks.length (entryLen k v) = s) (hs : Sought b b₁ s)
    (hfilled : ∀ i < s.off / chunkSize, ∃ c, b.chunks[i]? = some (some c))
    (ho : b₁.Opened b₂ (s.off / chunkSize) c) (hage : s.gen + 1 ≤ a.cur.gen + age) :
    Refines age (b₂.stored k v hash c s.off (s.off / chunkSize))
      (a.insert chunkSize b.chunks.length hash k v (entryLen k v)) := by
  have hn := h.length_pos
  obtain ⟨hsame, hlt⟩ := hplace ▸ Slot.place_fits hn h.wf.cur hfit
  have hi : s.off / chunkSize < b₁.chunks.length := hs.length ▸ hlt
  have hlen := hs.len ho
  have hend : c.len + entryLen k v < chunkSize := by
    rw [hlen]
    exact Slot.mod_add_lt (by decide) hsame
  have hoff : s.off < 2 ^ bucketSizeBits :=
    ((Nat.div_lt_iff_lt_mul (by decide)).1 hlt).trans_le h.bound
  have hlength : (b₂.stored k v hash c s.off (s.off / chunkSize)).chunks.length =
      b.chunks.length := by
    simp [Bucket.stored, ho.grown.chunks, hs.length]
  have hgen : b₂.gen % 2 ^ genSizeBits = genCycle maxGen s.gen := ho.grown.gen ▸ hs.gen
  have hword : pack s.off b₂.gen = slotWord s := pack_eq_slotWord hoff hgen
  have hm : ∀ h', (b₂.stored k v hash c s.off (s.off / chunkSize)).m h' =
      if h' = hash then some (slotWord s) else b.m h' := by
    intro h'
    rw [← hword, ← hs.m, ← ho.grown.m]
    exact Function.update_apply ..
  have hlast : ∀ h', (a.insert chunkSize b.chunks.length hash k v (entryLen k v)).last h' =
      if h' = hash then some ⟨k, v, s⟩ else a.last h' := by
    intro h'
    rw [RingMap.last_insert, hplace]
  have hcur : (a.insert chunkSize b.chunks.length hash k v (entryLen k v)).cur =
      ⟨s.gen, s.off + entryLen k v⟩ := by
    rw [RingMap.insert, Slot.advance, hplace]
  have hdiv : (s.off + (Bucket.encode k v).length) / chunkSize = s.off / chunkSize := hsame
  refine ⟨owned_stored ho hi hend.le, hlength ▸ h.bound, hlength ▸ h.wf.insert hash hfit, ?_, ?_,
    ?_, ?_, ?_, ?_⟩
  · rw [hcur]
    rfl
  · rw [hcur]
    exact hgen
  · have hmod : (s.off + (Bucket.encode k v).length) % chunkSize =
        c.len + (Bucket.encode k v).length := by
      rw [hlen] at hend ⊢
      rw [← Nat.mod_add_mod]
      exact Nat.mod_eq_of_lt hend
    simp only [Bucket.stored, hdiv, hmod]
    rw [List.getElem?_set_self (by rw [ho.grown.chunks]; exact hi)]
    rintro _ ⟨⟩
    rfl
  · simp only [Bucket.stored, hdiv, ho.grown.chunks]
    intro i hlt
    obtain ⟨c₀, hc₀⟩ := hfilled i hlt
    obtain ⟨c₁, hc₁, -⟩ := hs.array i c₀ hc₀
    exact ⟨c₁, (List.getElem?_set_ne hlt.ne').trans hc₁⟩
  · intro h' w hw
    rw [hm] at hw
    rw [hcur, hlast]
    split_ifs at hw ⊢ with heq
    · obtain rfl := Option.some.inj hw
      exact ⟨_, rfl, rfl, Nat.le_add_right _ _⟩
    · obtain ⟨e, he, hwe, hold⟩ := h.word h' w hw
      refine ⟨e, he, hwe, ?_⟩
      simp only
      omega
  · intro h' e he hlive
    rw [hm]
    rw [hlast] at he
    rw [hcur] at hlive
    split_ifs at he ⊢ with heq
    · obtain rfl := Option.some.inj he
      exact ⟨rfl, holds_stored_self ho hi hlen hend.le⟩
    · have hbefore := h.wf.before h' e he
      have hadvance : a.cur.advance chunkSize b.chunks.length (entryLen k v) =
          ⟨s.gen, s.off + entryLen k v⟩ := by rw [Slot.advance, hplace]
      rw [← hadvance] at hlive
      obtain ⟨hword', hholds⟩ := h.live h' e he (Slot.live_of_live_advance hbefore hlive)
      refine ⟨hword', holds_stored hs ho hi hsame hholds ?_⟩
      exact hplace ▸ Slot.disjoint_place hbefore hlive

/-! ### Cleaning -/

/-- What the cleaning of the map must do: keep what `Get` would find, and nothing older than the
generation before. -/
structure Kind.Sound (kind : Kind) : Prop where
  keeps_live : ∀ {gen idx bGen bIdx : ℕ},
    (gen + 1 = bGen ∨ gen = maxGen ∧ bGen = 1) ∧ bIdx ≤ idx ∨ gen = bGen ∧ idx < bIdx →
      kind.keeps gen idx bGen bIdx = true
  keeps_near : ∀ {gen idx bGen bIdx : ℕ}, kind.keeps gen idx bGen bIdx = true →
    (gen + 1 = bGen ∨ gen = maxGen ∧ bGen = 1) ∨ gen = bGen

theorem bucketUnallocated_sound : bucketUnallocated.Sound where
  keeps_live := by
    intro gen idx bGen bIdx h
    exact decide_eq_true h
  keeps_near := by
    intro gen idx bGen bIdx h
    exact (of_decide_eq_true h).imp And.left And.left

theorem Refines.bGen_eq {age : ℕ} (h : Refines age b a) : b.bGen = genCycle maxGen a.cur.gen :=
  b.bGen_eq.trans h.gen

/-- A record that is two generations old is told from those of the current generation and of the one
before. -/
theorem Refines.age_le_one (h : Refines 2 b a) {hash : UInt64}
    {e : RingEntry (List UInt8) (List UInt8)} (he : a.last hash = some e)
    (hage : a.cur.gen ≤ e.slot.gen + 2)
    (hnear : (wordGen (slotWord e.slot) + 1 = b.bGen ∨
      wordGen (slotWord e.slot) = maxGen ∧ b.bGen = 1) ∨ wordGen (slotWord e.slot) = b.bGen) :
    a.cur.gen ≤ e.slot.gen + 1 := by
  by_contra hold
  have hgen : a.cur.gen = e.slot.gen + 2 := by omega
  obtain ⟨hne, hne'⟩ := genCycle_far (N := maxGen) (by decide) e.slot.gen
  rw [wordGen_slotWord (h.off_lt he), h.bGen_eq, hgen] at hnear
  rcases hnear with hprev | hsame
  · exact hne' hprev
  · exact hne hsame

/-- The words that cleaning takes away are those that are too old or dead. -/
theorem Refines.cleanLockedMap {kind : Kind} (hkind : kind.Sound) (h : Refines 2 b a) :
    Refines 1 (b.cleanLockedMap kind) a := by
  have hmax : 2 ≤ maxGen := by decide
  have hbGen := h.bGen_eq
  refine ⟨h.owned.congr rfl rfl rfl rfl rfl rfl, h.bound, h.wf, h.idx, h.gen, h.used, h.filled, ?_,
    ?_⟩
  · intro h' w hw
    obtain ⟨hw, hkeeps⟩ := Option.filter_eq_some_iff.1 hw
    obtain ⟨e, he, rfl, hage⟩ := h.word h' w hw
    exact ⟨e, he, rfl, h.age_le_one he hage (hkind.keeps_near hkeeps)⟩
  · intro h' e he hlive
    obtain ⟨hm, hholds⟩ := h.live h' e he hlive
    refine ⟨Option.filter_eq_some_iff.2 ⟨hm, hkind.keeps_live ?_⟩, hholds⟩
    rw [wordGen_slotWord (h.off_lt he), wordIdx_slotWord (h.off_lt he), hbGen, h.idx]
    have hbefore := h.wf.before h' e he
    have hlen : 4 ≤ entryLen e.key e.value := by
      rw [entryLen, Bucket.length_encode]
      omega
    rcases hlive with hgen | ⟨hgen, hoff⟩
    · right
      unfold Slot.Before at hbefore
      exact ⟨by rw [hgen], by omega⟩
    · left
      exact ⟨(genCycle_succ_iff hmax (Or.inr hgen)).2 hgen, hoff⟩

/-- A pair whose record is not shorter than a chunk is refused, and the bucket stays as it is. -/
theorem set_too_long (kind : Kind) (mmapErr : Option String) (b : Bucket) (hash : UInt64)
    (hlong : chunkSize ≤ entryLen k v) :
    ∃ err, b.set kind mmapErr k v hash = some (b, some err) := by
  have hlen : (Bucket.kvLenBuf k v).length + k.length + v.length = entryLen k v :=
    (Bucket.length_encode k v).symm
  unfold Bucket.set
  by_cases hbig : 2 ^ maxValueSizeLog ≤ k.length ∨ 2 ^ maxValueSizeLog ≤ v.length
  · exact ⟨_, if_pos hbig⟩
  · simp only [hlen]
    rw [if_neg hbig, if_pos hlong]
    exact ⟨_, rfl⟩

/-- A pair whose record fits into a chunk passes the first test of `Set`. -/
theorem not_too_big (hfit : entryLen k v < chunkSize) :
    ¬ (2 ^ maxValueSizeLog ≤ k.length ∨ 2 ^ maxValueSizeLog ≤ v.length) := by
  rw [entryLen, Bucket.length_encode] at hfit
  unfold maxValueSizeLog
  unfold chunkSize maxValueSizeKB at hfit
  omega

theorem kvLen_eq (k v : List UInt8) :
    (Bucket.kvLenBuf k v).length + k.length + v.length = entryLen k v :=
  (Bucket.length_encode k v).symm

/-- The record of a pair can be written to slice `c` of bucket `b'`, at slot `s`. -/
structure Ready (b : Bucket) (a : Spec) (k v : List UInt8) (s : Slot) (b' : Bucket) (c : Slice) :
    Prop where
  size : ∀ arr ∈ b'.mem, arr.length = chunkSize
  fits : c.len + (Bucket.encode k v).length ≤ chunkSize
  m : b'.m = b.m
  length : b'.chunks.length = b.chunks.length
  refines : ∀ (hash : UInt64) (age : ℕ), s.gen + 1 ≤ a.cur.gen + age →
    Refines age (b'.stored k v hash c s.off (s.off / chunkSize))
      (a.insert chunkSize b.chunks.length hash k v (entryLen k v))

/-- **What `Set` does before it writes**: it looks for a place where the map does, and opens the
chunk.  When that fails nothing has changed. -/
theorem Refines.ready (h : Refines 1 b a) (mmapErr : Option String)
    (hfit : entryLen k v < chunkSize)
    (hplace : a.cur.place chunkSize b.chunks.length (entryLen k v) = s) :
    ∃ b₁ : Bucket, b.seek (entryLen k v) =
        some (b₁, s.off, s.off / chunkSize, decide (s.gen ≠ a.cur.gen)) ∧
      ((∃ (b₂ : Bucket) (c : Slice),
          b₁.openChunk mmapErr (s.off / chunkSize) = some (.ok (b₂, c)) ∧ Ready b a k v s b₂ c) ∨
        b₁ = b ∧ b.chunks[s.off / chunkSize]? = some none ∧
          ∃ (bytes : ℕ) (err : String), mmapErr = some err ∧
          b₁.openChunk mmapErr (s.off / chunkSize) = some (.error ("cannot allocate chunk: " ++
            ("cannot allocate " ++ toString bytes ++ " bytes via mmap: " ++ err)))) := by
  obtain ⟨hsame, hlt⟩ := Slot.place_fits h.length_pos h.wf.cur hfit
  obtain ⟨b₁, hseek, hs, hfilled⟩ := h.seek hfit
  rw [hplace] at hsame hlt hseek hs hfilled
  refine ⟨b₁, hseek, ?_⟩
  rcases Bucket.openChunk_cases hs.owned (hs.length.symm ▸ hlt) mmapErr with
    ⟨b₂, c, hopen, ho⟩ | ⟨hnone, herr⟩
  · refine Or.inl ⟨b₂, c, hopen, ho.owned.size, ?_, ho.grown.m.trans hs.m, ?_, ?_⟩
    · rw [hs.len ho]
      exact (Slot.mod_add_lt (by decide) hsame).le
    · rw [ho.grown.chunks, hs.length]
    · intro hash age hage
      exact h.stored hfit hplace hs hfilled ho hage
  · obtain rfl := hs.same hnone
    exact Or.inr ⟨rfl, hnone, herr⟩

/-- **`Set` writes the record where the map does.** -/
theorem Refines.set {kind : Kind} (hkind : kind.Sound) (h : Refines 1 b a) (hash : UInt64)
    (hfit : entryLen k v < chunkSize) :
    ∃ b' : Bucket, b.set kind none k v hash = some (b', none) ∧
      b'.chunks.length = b.chunks.length ∧
      Refines 1 b' (a.insert chunkSize b.chunks.length hash k v (entryLen k v)) := by
  have hcases := Slot.place_cases chunkSize b.chunks.length a.cur (entryLen k v)
  generalize hplace : a.cur.place chunkSize b.chunks.length (entryLen k v) = s at hcases
  obtain ⟨b₁, hseek, ⟨b₂, c, hopen, hready⟩ | ⟨-, -, _, _, hnone, -⟩⟩ := h.ready none hfit hplace
  · have hset : b.set kind none k v hash =
        some (if decide (s.gen ≠ a.cur.gen) then
          (b₂.stored k v hash c s.off (s.off / chunkSize)).cleanLockedMap kind
          else b₂.stored k v hash c s.off (s.off / chunkSize), none) := by
      unfold Bucket.set
      simp only [kvLen_eq]
      rw [if_neg (not_too_big hfit), if_neg hfit.not_ge]
      simp only [Option.bind_eq_bind, hseek, Option.bind_some, hopen]
      rw [Bucket.store_eq kind hready.size hready.fits, Option.bind_some]
    have hlength : (b₂.stored k v hash c s.off (s.off / chunkSize)).chunks.length =
        b.chunks.length := (List.length_set ..).trans hready.length
    rw [hset]
    by_cases hgen : s.gen = a.cur.gen
    · exact ⟨_, by simp [hgen], hlength, hready.refines hash 1 (by omega)⟩
    · have hwrap : s.gen = a.cur.gen + 1 := by
        rcases hcases with ⟨heq, -⟩ | heq
        · exact absurd heq hgen
        · rw [heq]
      refine ⟨(b₂.stored k v hash c s.off (s.off / chunkSize)).cleanLockedMap kind,
        by simp [hgen], hlength, (hready.refines hash 2 ?_).cleanLockedMap hkind⟩
      omega
  · cases hnone

/-- When memory cannot be mapped, `Set` fails and leaves the bucket as it is, or does not need
to. -/
theorem Refines.set_mmapErr (kind : Kind) (h : Refines 1 b a) (mmapErr : Option String)
    (k v : List UInt8) (hash : UInt64) :
    b.set kind mmapErr k v hash = b.set kind none k v hash ∨
      ∃ err, b.set kind mmapErr k v hash = some (b, some err) := by
  by_cases hfit : entryLen k v < chunkSize
  · obtain ⟨-, hlt⟩ := Slot.place_fits h.length_pos h.wf.cur hfit
    obtain ⟨b₁, hseek, hs, -⟩ := h.seek hfit
    generalize a.cur.place chunkSize b.chunks.length (entryLen k v) = s at *
    obtain ⟨slot, hslot⟩ : ∃ slot, b₁.chunks[s.off / chunkSize]? = some slot :=
      ⟨_, List.getElem?_eq_getElem (hs.length.symm ▸ hlt)⟩
    unfold Bucket.set
    simp only [kvLen_eq, not_too_big hfit, hfit.not_ge, if_false, Option.bind_eq_bind, hseek,
      Option.bind_some]
    unfold Bucket.openChunk
    rw [hslot]
    cases slot with
    | some c => exact Or.inl rfl
    | none =>
      obtain rfl := hs.same hslot
      rcases Bucket.getChunk_mmapErr b₁ mmapErr with hget | ⟨err, hget⟩
      · exact Or.inl (by simp only [hget])
      · simp only [hget, Option.bind_some]
        exact Or.inr ⟨_, rfl⟩
  · exact Or.inr (set_too_long kind mmapErr b hash (not_lt.1 hfit))

end

end Cache

end MerkleService
