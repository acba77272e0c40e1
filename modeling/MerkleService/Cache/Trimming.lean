import MerkleService.Cache.BoundedMap
import MerkleService.Cache.Preallocated
import MerkleService.Data.LogMap

/-!
# Trimming a preallocated bucket

A preallocated bucket is a window on an endless log: chunk `i` of the bucket is chunk
`removed + i` of the log, where `removed` is the number of chunks that trims have removed.

* `Tracks` : the bucket and the map over the log that its history makes.
* `tracks_exec` : they stay related, whatever is done.
* `get_exact_trimmed` : **`Get` finds a key if and only if** the last pair of the hash is one of
  this key and its chunk has not been removed; a trim removes the pairs of its lowest chunks and no
  others.
-/

namespace MerkleService

namespace Cache

/-- The abstract map: for each hash the pair last set, over the log. -/
abbrev LogSpec := LogMap UInt64 (List UInt8) (List UInt8)

abbrev LogPair := LogEntry (List UInt8) (List UInt8)

/-- The bytes of a record are in its chunk. -/
def PreBucket.HoldsAt (b : PreBucket) (removed : ℕ) (e : LogPair) : Prop :=
  ∃ p arr, b.chunks[e.off / chunkSize - removed]? = some p ∧ b.mem[p]? = some arr ∧
    arr.OccursAt (e.off % chunkSize) (Bucket.encode e.key e.value)

/-- The word of a record, if its chunk has not been removed. -/
def word (removed : ℕ) (e : LogPair) : Option ℕ :=
  if removed ≤ e.off / chunkSize then some (pack (e.off - removed * chunkSize) 1) else none

/-- The chunks and the map of a bucket, when `removed` chunks of the log have been removed. -/
structure Mirrors (b : PreBucket) (removed : ℕ) (last : UInt64 → Option LogPair) : Prop where
  /-- No two slots have the same array. -/
  slot_unique : ∀ (i j p : ℕ), b.chunks[i]? = some p → b.chunks[j]? = some p → i = j
  size : ∀ (i p : ℕ), b.chunks[i]? = some p → ∃ arr, b.mem[p]? = some arr ∧ arr.length = chunkSize
  gen : b.gen = 1
  m : ∀ h, b.m h = (last h).bind (word removed)
  holds : ∀ h e, last h = some e → removed ≤ e.off / chunkSize → b.HoldsAt removed e

/-- **A bucket and the map over the log that it stands for.** -/
structure Tracks (b : PreBucket) (a : LogSpec) : Prop where
  mirrors : Mirrors b a.removed a.last
  pos : a.pos = b.idx + a.removed * chunkSize
  wf : a.WellFormed chunkSize b.chunks.length entryLen
  /-- Offsets fit into words. -/
  bound : b.chunks.length * chunkSize ≤ 2 ^ bucketSizeBits
  ratio_pos : 1 ≤ b.trimRatio
  ratio_le : b.trimRatio ≤ 100

section

variable {b b' : PreBucket} {a : LogSpec} {removed : ℕ} {last : UInt64 → Option LogPair}

theorem chunkSize_pos : 0 < chunkSize := by decide

theorem exists_off {e : LogPair} (h : removed ≤ e.off / chunkSize) :
    ∃ o, e.off = o + removed * chunkSize ∧ e.off / chunkSize = o / chunkSize + removed ∧
      e.off % chunkSize = o % chunkSize := by
  obtain ⟨o, ho⟩ := Nat.exists_eq_add_of_le ((Nat.le_div_iff_mul_le chunkSize_pos).1 h)
  refine ⟨o, by rw [ho, Nat.add_comm], ?_, ?_⟩
  · rw [ho, Nat.add_comm, Nat.add_mul_div_right _ _ chunkSize_pos]
  · rw [ho, Nat.add_comm, Nat.add_mul_mod_self_right]

theorem remove_pos (hratio : 1 ≤ b.trimRatio) (hn : 0 < b.chunks.length) :
    0 < b.numOfChunksToRemove := by
  have := Nat.mul_le_mul hn hratio
  unfold PreBucket.numOfChunksToRemove
  omega

theorem remove_le (hratio : b.trimRatio ≤ 100) : b.numOfChunksToRemove ≤ b.chunks.length := by
  have := Nat.mul_le_mul_left b.chunks.length hratio
  unfold PreBucket.numOfChunksToRemove
  omega

/-! ### Trim -/

/-- The word of a record after a trim: its offset is counted from the new begin of the window. -/
theorem word_trim {e : LogPair} {remove n : ℕ} (hbound : n * chunkSize ≤ 2 ^ bucketSizeBits)
    (hoff : e.off / chunkSize < removed + n) :
    ((word removed e).bind fun v => if remove * chunkSize ≤ wordIdx v then
        some (pack (wordIdx v - remove * chunkSize) 1) else none) = word (removed + remove) e := by
  unfold word
  by_cases hkept : removed ≤ e.off / chunkSize
  · obtain ⟨o, ho, hdiv, -⟩ := exists_off hkept
    have hword : o < 2 ^ bucketSizeBits := by
      have hchunk : o / chunkSize < n := by omega
      have hlt := (Nat.div_lt_iff_lt_mul chunkSize_pos).1 hchunk
      omega
    rw [if_pos hkept, Option.bind_some, ho, Nat.add_sub_cancel, wordIdx_pack hword]
    have hiff : remove * chunkSize ≤ o ↔
        removed + remove ≤ (o + removed * chunkSize) / chunkSize := by
      rw [← ho, hdiv, ← Nat.le_div_iff_mul_le chunkSize_pos]
      omega
    by_cases hin : remove * chunkSize ≤ o
    · rw [if_pos hin, if_pos (hiff.1 hin)]
      congr 2
      rw [Nat.add_mul]
      omega
    · rw [if_neg hin, if_neg (mt hiff.2 hin)]
  · rw [if_neg hkept, if_neg (by omega), Option.bind_none]

theorem Mirrors.lt_length (h : Mirrors b removed last) {i p : ℕ} (hp : b.chunks[i]? = some p) :
    p < b.mem.length := by
  obtain ⟨arr, harr, -⟩ := h.size i p hp
  exact (List.getElem?_eq_some_iff.1 harr).1

theorem Mirrors.trim (h : Mirrors b removed last)
    (hremove : b.numOfChunksToRemove ≤ b.chunks.length)
    (hbound : b.chunks.length * chunkSize ≤ 2 ^ bucketSizeBits)
    (hlast : ∀ h e, last h = some e → e.off / chunkSize < removed + b.chunks.length) :
    ∃ b', b.trim = some b' ∧ Mirrors b' (removed + b.numOfChunksToRemove) last ∧
      b'.chunks.length = b.chunks.length ∧ b'.idx = b.idx ∧ b'.trimRatio = b.trimRatio ∧
      b'.trimCount = b.trimCount + 1 := by
  obtain ⟨chunks, htrim, hlen, hget⟩ := b.trim_eq hremove
  refine ⟨_, htrim, ⟨?_, ?_, h.gen, ?_, ?_⟩, hlen, rfl, rfl, rfl⟩
  · -- old arrays come before new ones
    intro i j p hi hj
    simp only [hget] at hi hj
    split_ifs at hi hj with hi₁ hj₁ hj₂ hi₂ hj₁ hj₂
    · have := h.slot_unique _ _ p hi hj
      omega
    · have := h.lt_length hi
      have := Option.some.inj hj
      omega
    · have := h.lt_length hj
      have := Option.some.inj hi
      omega
    · have := Option.some.inj (hi.trans hj.symm)
      omega
  · intro i p hp
    simp only [hget] at hp
    split_ifs at hp with hi₁ hi₂
    · obtain ⟨arr, harr, hsize⟩ := h.size _ p hp
      refine ⟨arr, ?_, hsize⟩
      rw [List.getElem?_append_left (h.lt_length hp), harr]
    · obtain rfl := Option.some.inj hp
      refine ⟨List.replicate chunkSize 0, ?_, List.length_replicate⟩
      rw [List.getElem?_append_right (Nat.le_add_right _ _), Nat.add_sub_cancel_left,
        List.getElem?_replicate, if_pos (by omega)]
  · intro h'
    dsimp only
    rw [h.m h', Option.bind_assoc, h.gen]
    cases he : last h' with
    | none => rfl
    | some e => exact word_trim hbound (hlast h' e he)
  · intro h' e he hkept
    obtain ⟨p, arr, hchunk, harr, hocc⟩ := h.holds h' e he (by omega)
    have hlt := hlast h' e he
    refine ⟨p, arr, ?_, ?_, hocc⟩
    · simp only [hget]
      rw [if_pos (by omega), ← hchunk]
      congr 1
      omega
    · exact (List.getElem?_append_left (h.lt_length hchunk)).trans harr

/-! ### Set -/

theorem Tracks.length_pos (h : Tracks b a) : 0 < b.chunks.length := by
  have := h.wf.low
  have := h.wf.high
  omega

theorem Tracks.off_lt (h : Tracks b a) (hash : UInt64) (e : LogPair) (he : a.last hash = some e) :
    e.off / chunkSize < a.removed + b.chunks.length := by
  have hbefore := h.wf.before hash e he
  have hle : e.off / chunkSize ≤ a.pos / chunkSize := Nat.div_le_div_right (by omega)
  exact hle.trans_lt h.wf.high

/-- The word of a record that has not been removed, and that its offset fits. -/
theorem Tracks.word_eq (h : Tracks b a) {hash : UInt64} {e : LogPair} (he : a.last hash = some e)
    (hkept : a.removed ≤ e.off / chunkSize) {o : ℕ} (ho : e.off = o + a.removed * chunkSize) :
    o < 2 ^ bucketSizeBits ∧ word a.removed e = some (pack o 1) := by
  constructor
  · have hlt := h.off_lt hash e he
    rw [ho, Nat.add_mul_div_right _ _ chunkSize_pos] at hlt
    have hoff : o < b.chunks.length * chunkSize :=
      (Nat.div_lt_iff_lt_mul chunkSize_pos).1 (by omega)
    exact hoff.trans_le h.bound
  · rw [word, if_pos hkept, ho, Nat.add_sub_cancel]

/-- The number of chunks removed after a write of length `len`. -/
def removedAfter (b : PreBucket) (a : LogSpec) (len : ℕ) : ℕ :=
  LogMap.drops b.chunks.length b.numOfChunksToRemove a.removed
    (LogMap.place chunkSize a.pos len / chunkSize)

/-- `Set` finds the place that the log gives to the record, and trims when the writer leaves the
window. -/
theorem Tracks.seek (h : Tracks b a) {len : ℕ} (hlen : len < chunkSize) :
    ∃ b' o, b.seek len = some (b', o) ∧
      LogMap.place chunkSize a.pos len = o + removedAfter b a len * chunkSize ∧
      Mirrors b' (removedAfter b a len) a.last ∧ b'.chunks.length = b.chunks.length ∧
      b'.trimRatio = b.trimRatio ∧
      b'.trimCount = b.trimCount + (if removedAfter b a len = a.removed then 0 else 1) := by
  have hsize := chunkSize_pos
  have hremove := remove_pos h.ratio_pos h.length_pos
  have hremove' : b.numOfChunksToRemove ≤ b.chunks.length := remove_le h.ratio_le
  have hdiv : a.pos / chunkSize = b.idx / chunkSize + a.removed := by
    rw [h.pos, Nat.add_mul_div_right _ _ hsize]
  have hdiv' : (a.pos + len) / chunkSize = (b.idx + len) / chunkSize + a.removed := by
    rw [h.pos, Nat.add_right_comm, Nat.add_mul_div_right _ _ hsize]
  have hhigh := h.wf.high
  by_cases hstay : (a.pos + len) / chunkSize = a.pos / chunkSize
  · -- the record fits into the chunk in use
    have hplace : LogMap.place chunkSize a.pos len = a.pos := if_pos hstay
    have hafter : removedAfter b a len = a.removed := by
      rw [removedAfter, hplace, LogMap.drops, if_neg (by omega)]
    refine ⟨b, b.idx, ?_, ?_, ?_, rfl, rfl, ?_⟩
    · simp only [PreBucket.seek]
      rw [if_neg (by omega)]
    · rw [hplace, hafter, h.pos]
    · rw [hafter]
      exact h.mirrors
    · rw [if_pos hafter, Nat.add_zero]
  · have hnext : (b.idx + len) / chunkSize = b.idx / chunkSize + 1 :=
      (Slot.div_add_eq_succ hlen (by omega)).1
    have hplace : LogMap.place chunkSize a.pos len = (a.pos / chunkSize + 1) * chunkSize :=
      if_neg hstay
    have hchunk : LogMap.place chunkSize a.pos len / chunkSize = a.pos / chunkSize + 1 := by
      rw [hplace, Nat.mul_div_cancel _ hsize]
    by_cases hroom : b.idx / chunkSize + 1 < b.chunks.length
    · -- it goes to the next chunk
      have hafter : removedAfter b a len = a.removed := by
        rw [removedAfter, hchunk, LogMap.drops, if_neg (by omega)]
      refine ⟨b, (b.idx / chunkSize + 1) * chunkSize, ?_, ?_, ?_, rfl, rfl, ?_⟩
      · simp only [PreBucket.seek]
        rw [if_pos (by omega), if_neg (by omega), hnext]
      · rw [hplace, hafter, hdiv, ← Nat.add_mul]
        congr 1
        omega
      · rw [hafter]
        exact h.mirrors
      · rw [if_pos hafter, Nat.add_zero]
    · -- the bucket is trimmed
      have hafter : removedAfter b a len = a.removed + b.numOfChunksToRemove := by
        rw [removedAfter, hchunk, LogMap.drops, if_pos (by omega)]
      obtain ⟨b', htrim, hmirrors, hlength, -, hratio, hcount⟩ :=
        h.mirrors.trim hremove' h.bound h.off_lt
      refine ⟨b', chunkSize * (b.chunks.length - b.numOfChunksToRemove), ?_, ?_, ?_, hlength,
        hratio, ?_⟩
      · simp only [PreBucket.seek]
        rw [if_pos (by omega), if_pos (by omega), htrim, Option.map_some]
      · rw [hplace, hafter, Nat.mul_comm chunkSize, ← Nat.add_mul]
        congr 1
        omega
      · rw [hafter]
        exact hmirrors
      · rw [hcount, if_neg (by omega)]

/-- The bucket with a pair written at offset `o`, to array `p` that has held `arr`. -/
def PreBucket.written (b : PreBucket) (k v : List UInt8) (hash : UInt64) (p : ℕ) (arr : List UInt8)
    (o : ℕ) : PreBucket :=
  { b with
    mem := b.mem.set p (copyAt arr (o % chunkSize) (Bucket.encode k v))
    currentGenCount := b.currentGenCount + 1
    m := Function.update b.m hash (some (pack o b.gen))
    idx := o + entryLen k v }

theorem Mirrors.holdsAt_written (h : Mirrors b removed last) (hash : UInt64) {k v : List UInt8}
    {o p : ℕ} {arr : List UInt8} (hp : b.chunks[o / chunkSize]? = some p)
    (harr : b.mem[p]? = some arr)
    (hroom : o % chunkSize + (Bucket.encode k v).length ≤ arr.length) {e : LogPair}
    (he : b.HoldsAt removed e) (hkept : removed ≤ e.off / chunkSize)
    (hbefore : e.off + entryLen e.key e.value ≤ o + removed * chunkSize) :
    (b.written k v hash p arr o).HoldsAt removed e := by
  have hlt : p < b.mem.length := (List.getElem?_eq_some_iff.1 harr).1
  obtain ⟨q, arr', hq, harr', hocc⟩ := he
  rcases eq_or_ne q p with rfl | hqp
  · -- an earlier record of the chunk that is written to
    obtain rfl := Option.some.inj (harr.symm.trans harr')
    have hsame : e.off / chunkSize = (o + removed * chunkSize) / chunkSize := by
      have hslot := h.slot_unique _ _ q hq hp
      rw [Nat.add_mul_div_right _ _ chunkSize_pos]
      omega
    have hend := Slot.mod_add_le hsame hbefore
    rw [Nat.add_mul_mod_self_right] at hend
    refine ⟨q, _, hq, List.getElem?_set_self hlt, ?_⟩
    rw [copyAt, List.take_of_length_le (by omega)]
    exact hocc.splice hroom (.inl hend)
  · exact ⟨q, arr', hq, (List.getElem?_set_ne hqp.symm).trans harr', hocc⟩

theorem Mirrors.write (h : Mirrors b removed last) (hash : UInt64) {k v : List UInt8} {o : ℕ}
    {p : ℕ} {arr : List UInt8} (hp : b.chunks[o / chunkSize]? = some p)
    (harr : b.mem[p]? = some arr)
    (hfit : (o + entryLen k v) / chunkSize = o / chunkSize)
    (hbefore : ∀ h e, last h = some e →
      e.off + entryLen e.key e.value ≤ o + removed * chunkSize) :
    Mirrors (b.written k v hash p arr o) removed
      (Function.update last hash (some ⟨k, v, o + removed * chunkSize⟩)) := by
  have hlt : p < b.mem.length := (List.getElem?_eq_some_iff.1 harr).1
  have hsize : arr.length = chunkSize := by
    obtain ⟨arr', harr', hsize⟩ := h.size _ p hp
    rwa [Option.some.inj (harr.symm.trans harr')]
  have hend : o % chunkSize + (Bucket.encode k v).length < chunkSize :=
    Slot.mod_add_lt chunkSize_pos hfit
  have hcopy : copyAt arr (o % chunkSize) (Bucket.encode k v) =
      arr.splice (o % chunkSize) (Bucket.encode k v) := by
    rw [copyAt, List.take_of_length_le (by omega)]
  have hdiv : (o + removed * chunkSize) / chunkSize = o / chunkSize + removed :=
    Nat.add_mul_div_right _ _ chunkSize_pos
  have hmod : (o + removed * chunkSize) % chunkSize = o % chunkSize := Nat.add_mul_mod_self_right ..
  refine ⟨h.slot_unique, ?_, h.gen, ?_, ?_⟩
  · intro i q hq
    obtain ⟨arr', harr', hsize'⟩ := h.size i q hq
    rcases eq_or_ne q p with rfl | hne
    · refine ⟨_, List.getElem?_set_self hlt, ?_⟩
      rw [hcopy, List.length_splice (by omega), hsize]
    · exact ⟨arr', (List.getElem?_set_ne hne.symm).trans harr', hsize'⟩
  · intro h'
    rcases eq_or_ne h' hash with rfl | hne
    · simp only [PreBucket.written, Function.update_self, Option.bind_some, word, hdiv, h.gen,
        Nat.add_sub_cancel]
      rw [if_pos (Nat.le_add_left _ _)]
    · simp only [PreBucket.written, Function.update_of_ne hne]
      exact h.m h'
  · intro h' e he hkept
    rcases eq_or_ne h' hash with rfl | hne
    · rw [Function.update_self] at he
      obtain rfl := Option.some.inj he
      refine ⟨p, _, ?_, List.getElem?_set_self hlt, ?_⟩
      · dsimp only [PreBucket.written]
        rw [hdiv, Nat.add_sub_cancel, hp]
      · dsimp only
        rw [hmod, hcopy]
        exact List.occursAt_splice (by omega)
    · rw [Function.update_of_ne hne] at he
      exact h.holdsAt_written hash hp harr (by omega) (h.holds h' e he hkept) hkept
        (hbefore h' e he)

/-- The pair is set in a bucket of `n` chunks of which a trim removes `r`; a pair whose record is
too long is refused. -/
def logWrite (n r : ℕ) (a : LogSpec) (h : UInt64) (k v : List UInt8) : LogSpec :=
  if entryLen k v < chunkSize then a.insert chunkSize n r h k v (entryLen k v) else a

theorem preSet_too_long (b : PreBucket) (hash : UInt64) {k v : List UInt8}
    (hlong : chunkSize ≤ entryLen k v) : ∃ err, b.set k v hash = some (b, some err) := by
  have hlen : (Bucket.kvLenBuf k v).length + k.length + v.length = entryLen k v := by
    rw [entryLen, Bucket.length_encode]
    rfl
  unfold PreBucket.set
  by_cases hbig : 2 ^ maxValueSizeLog ≤ k.length ∨ 2 ^ maxValueSizeLog ≤ v.length
  · rw [if_pos hbig]
    exact ⟨_, rfl⟩
  · rw [if_neg hbig]
    dsimp only
    rw [hlen, if_pos hlong]
    exact ⟨_, rfl⟩

/-- **`Set` of a pair that fits writes a record of the log.** -/
theorem Tracks.set (h : Tracks b a) (hash : UInt64) {k v : List UInt8}
    (hlen : entryLen k v < chunkSize) :
    ∃ b', b.set k v hash = some (b', none) ∧
      Tracks b' (a.insert chunkSize b.chunks.length b.numOfChunksToRemove hash k v
        (entryLen k v)) ∧ b'.chunks.length = b.chunks.length ∧ b'.trimRatio = b.trimRatio ∧
      b'.trimCount =
        b.trimCount + (if removedAfter b a (entryLen k v) = a.removed then 0 else 1) := by
  have hsum : (Bucket.kvLenBuf k v).length + k.length + v.length = entryLen k v := by
    rw [entryLen, Bucket.length_encode]
    rfl
  have hsmall : ¬ (2 ^ maxValueSizeLog ≤ k.length ∨ 2 ^ maxValueSizeLog ≤ v.length) := by
    have hchunk : chunkSize < 2 ^ maxValueSizeLog := by decide
    have := hsum
    omega
  have hremove := remove_pos h.ratio_pos h.length_pos
  have hremove' : b.numOfChunksToRemove ≤ b.chunks.length := remove_le h.ratio_le
  obtain ⟨b₁, o, hseek, hplace, hmirrors, hlength, hratio, hcount⟩ := h.seek hlen
  have hdiv : LogMap.place chunkSize a.pos (entryLen k v) / chunkSize =
      o / chunkSize + removedAfter b a (entryLen k v) := by
    rw [hplace, Nat.add_mul_div_right _ _ chunkSize_pos]
  have hfit : (o + entryLen k v) / chunkSize = o / chunkSize := by
    have hfits := @LogMap.place_fits chunkSize a.pos _ hlen
    rw [hplace, Nat.add_right_comm, Nat.add_mul_div_right _ _ chunkSize_pos,
      Nat.add_mul_div_right _ _ chunkSize_pos] at hfits
    omega
  obtain ⟨-, hwindow⟩ := @LogMap.WellFormed.window _ _ _ _ _ _ (entryLen k v) _ _ h.wf hremove
    hremove' chunkSize_pos
  have hlt : o / chunkSize < b₁.chunks.length := by
    rw [← removedAfter, hdiv] at hwindow
    omega
  obtain ⟨p, hp⟩ : ∃ p, b₁.chunks[o / chunkSize]? = some p := ⟨_, List.getElem?_eq_getElem hlt⟩
  obtain ⟨arr, harr, hsize⟩ := hmirrors.size _ _ hp
  have hbefore : ∀ h' e, a.last h' = some e → e.off + entryLen e.key e.value ≤
      o + removedAfter b a (entryLen k v) * chunkSize := by
    intro h' e he
    rw [← hplace]
    exact (h.wf.before h' e he).trans (LogMap.le_place chunkSize_pos)
  have hinsert : a.insert chunkSize b.chunks.length b.numOfChunksToRemove hash k v (entryLen k v) =
      ⟨o + removedAfter b a (entryLen k v) * chunkSize + entryLen k v,
        removedAfter b a (entryLen k v), Function.update a.last hash
          (some ⟨k, v, o + removedAfter b a (entryLen k v) * chunkSize⟩)⟩ := by
    change LogMap.mk _ (removedAfter b a (entryLen k v)) _ = _
    rw [hplace]
  refine ⟨b₁.written k v hash p arr o, ?_, ⟨?_, ?_, ?_, ?_, ?_, ?_⟩, hlength, hratio, hcount⟩
  · unfold PreBucket.set
    rw [if_neg hsmall]
    dsimp only
    rw [hsum, if_neg (by omega), hseek]
    simp only [Option.bind_eq_bind, Option.bind_some, hp, harr]
    rw [if_neg (by rw [hsize]; exact chunkSize_pos.ne')]
    rfl
  · rw [hinsert]
    exact hmirrors.write hash hp harr hfit hbefore
  · rw [hinsert]
    exact Nat.add_right_comm ..
  · have hwf := h.wf.insert hremove hremove' hash hlen
    exact hlength.symm ▸ hwf
  · exact hlength.symm ▸ h.bound
  · exact hratio.symm ▸ h.ratio_pos
  · exact hratio.symm ▸ h.ratio_le

/-! ### The other operations -/

theorem Tracks.write (h : Tracks b a) (k v : List UInt8) (hash : UInt64) :
    ∃ b' err, b.set k v hash = some (b', err) ∧ b'.chunks.length = b.chunks.length ∧
      b'.trimRatio = b.trimRatio ∧
      Tracks b' (logWrite b.chunks.length b.numOfChunksToRemove a hash k v) := by
  by_cases hfit : entryLen k v < chunkSize
  · obtain ⟨b', hset, h', hlen, hratio, -⟩ := h.set hash hfit
    refine ⟨b', none, hset, hlen, hratio, ?_⟩
    rwa [logWrite, if_pos hfit]
  · obtain ⟨err, hset⟩ := preSet_too_long b hash (not_lt.1 hfit)
    refine ⟨b, some err, hset, rfl, rfl, ?_⟩
    rwa [logWrite, if_neg hfit]

theorem numOfChunksToRemove_congr (hlen : b'.chunks.length = b.chunks.length)
    (hratio : b'.trimRatio = b.trimRatio) :
    b'.numOfChunksToRemove = b.numOfChunksToRemove := by
  rw [PreBucket.numOfChunksToRemove, PreBucket.numOfChunksToRemove, hlen, hratio]

theorem Tracks.setMulti (sum64 : List UInt8 → UInt64) (h : Tracks b a)
    {keys values : List (List UInt8)} (hlen : keys.length ≤ values.length) :
    ∃ b', b.setMulti sum64 keys values = some b' ∧ b'.chunks.length = b.chunks.length ∧
      b'.trimRatio = b.trimRatio ∧ Tracks b' ((keys.zip values).foldl (fun a p =>
        logWrite b.chunks.length b.numOfChunksToRemove a (sum64 p.1) p.1 p.2) a) := by
  induction keys generalizing b a values with
  | nil => exact ⟨b, rfl, rfl, rfl, h⟩
  | cons k keys ih =>
    cases values with
    | nil => simp at hlen
    | cons v values =>
      obtain ⟨b₁, err, hset, hlen₁, hratio₁, h₁⟩ := h.write k v (sum64 k)
      obtain ⟨b', hrest, hlen', hratio', h'⟩ := ih h₁ (by simpa using hlen)
      rw [numOfChunksToRemove_congr hlen₁ hratio₁, hlen₁] at h'
      refine ⟨b', ?_, hlen'.trans hlen₁, hratio'.trans hratio₁, h'⟩
      rw [PreBucket.setMulti, hset]
      exact hrest

theorem Tracks.del (h : Tracks b a) (hash : UInt64) : Tracks (b.del hash) (a.erase hash) := by
  refine ⟨⟨h.mirrors.slot_unique, h.mirrors.size, h.mirrors.gen, ?_, ?_⟩, h.pos, h.wf.erase hash,
    h.bound, h.ratio_pos, h.ratio_le⟩
  · intro h'
    rcases eq_or_ne h' hash with rfl | hne
    · simp [PreBucket.del, LogMap.erase]
    · simp only [PreBucket.del, LogMap.erase, Function.update_of_ne hne]
      exact h.mirrors.m h'
  · intro h' e he
    rcases eq_or_ne h' hash with rfl | hne
    · simp [LogMap.erase] at he
    · simp only [LogMap.erase, Function.update_of_ne hne] at he
      exact h.mirrors.holds h' e he

theorem Tracks.reset (h : Tracks b a) : Tracks b.reset .empty :=
  ⟨⟨h.mirrors.slot_unique, h.mirrors.size, rfl, fun _ => rfl, fun _ _ he => by cases he⟩, rfl,
    LogMap.wellFormed_empty h.length_pos, h.bound, h.ratio_pos, h.ratio_le⟩

theorem tracks_init {maxBytes ratio : ℕ} (hratio : 1 ≤ ratio) (hratio' : ratio ≤ 100)
    (hinit : PreBucket.init none maxBytes ratio = some (.ok b)) :
    Tracks b .empty ∧ b.trimRatio = ratio := by
  unfold PreBucket.init at hinit
  by_cases hzero : maxBytes = 0
  · rw [if_pos hzero] at hinit
    cases hinit
  by_cases hbig : maxBucketSize ≤ maxBytes
  · rw [if_neg hzero, if_pos hbig] at hinit
    cases hinit
  rw [if_neg hzero, if_neg hbig] at hinit
  by_cases hdvd : chunkSize ∣ maxBytes
  · obtain ⟨n, rfl⟩ := hdvd
    rw [Nat.mul_comm] at hinit
    simp only [carve_mul, Option.bind_eq_bind, Option.bind_some, Option.some.injEq,
      Except.ok.injEq] at hinit
    subst hinit
    have hn : 0 < n := Nat.pos_of_mul_pos_left (Nat.pos_of_ne_zero hzero)
    refine ⟨⟨⟨?_, ?_, rfl, fun _ => rfl, fun _ _ he => by cases he⟩, rfl, ?_, ?_, hratio, hratio'⟩,
      rfl⟩
    · intro i j p hi hj
      simp only [PreBucket.reset, List.length_map, List.length_range] at hi hj
      obtain ⟨hi', rfl⟩ := List.getElem?_eq_some_iff.1 hi
      obtain ⟨hj', heq⟩ := List.getElem?_eq_some_iff.1 hj
      simpa using heq.symm
    · intro i p hp
      simp only [PreBucket.reset, List.length_map, List.length_range] at hp
      obtain ⟨hi', rfl⟩ := List.getElem?_eq_some_iff.1 hp
      refine ⟨List.replicate chunkSize 0, ?_, List.length_replicate⟩
      rw [List.length_range] at hi'
      simp [PreBucket.reset, hi']
    · exact LogMap.wellFormed_empty (by simpa [PreBucket.reset] using hn)
    · simp only [PreBucket.reset, List.length_map, List.length_range]
      rw [Nat.mul_comm]
      exact (not_le.1 hbig).le
  · simp only [carve_eq_none hdvd] at hinit
    cases hinit

/-! ### Get -/

/-- **`Get` finds what the map over the log finds**, and does not panic. -/
theorem Tracks.get (h : Tracks b a) (dst k : List UInt8) (hash : UInt64) (returnDst : Bool) :
    b.get dst k hash returnDst = some (match a.find chunkSize hash k with
      | some v => (if returnDst then dst ++ v else dst, true)
      | none => (dst, false)) := by
  have hm : b.view.m hash = (a.last hash).bind (word a.removed) := h.mirrors.m hash
  unfold PreBucket.get Bucket.get
  rw [hm]
  cases he : a.last hash with
  | none => simp [LogMap.find, he]
  | some e =>
    have hfind : a.find chunkSize hash k =
        if e.key = k ∧ a.removed ≤ e.off / chunkSize then some e.value else none := by
      rw [LogMap.find, he, Option.bind_some]
      rfl
    by_cases hkept : a.removed ≤ e.off / chunkSize
    · obtain ⟨o, ho, hdiv, hmod⟩ := exists_off hkept
      obtain ⟨hbound, hword⟩ := h.word_eq he hkept ho
      have hgen : wordGen (pack o 1) = 1 := wordGen_pack hbound 1
      have hpos : 0 < pack o 1 := by
        rw [pack_eq hbound]
        exact Nat.add_pos_left (by decide) _
      have hbGen : b.view.bGen = 1 := by
        rw [Bucket.bGen_eq]
        exact congrArg (· % 2 ^ genSizeBits) h.mirrors.gen
      have hadmits : b.view.admits 1 o = true := by
        have hbefore := h.wf.before hash e he
        have hlen := Bucket.length_encode e.key e.value
        have hpos := h.pos
        rw [entryLen] at hbefore
        refine decide_eq_true (.inl ⟨hbGen.symm, ?_⟩)
        change o < b.idx
        omega
      obtain ⟨p, arr, hp, harr, hocc⟩ := h.mirrors.holds hash e he hkept
      have hholds : b.view.Holds ⟨e.key, e.value, ⟨0, o⟩⟩ := by
        refine ⟨⟨p, chunkSize⟩, arr, ?_, harr, hmod ▸ hocc⟩
        rw [hdiv, Nat.add_sub_cancel] at hp
        simp [PreBucket.view, hp]
      have hfits : (o + entryLen e.key e.value) / chunkSize = o / chunkSize := by
        have hfits := h.wf.fits hash e he
        rw [hdiv, ho, Nat.add_right_comm, Nat.add_mul_div_right _ _ chunkSize_pos] at hfits
        omega
      simp only [Option.bind_some, hword, Option.getD_some, wordIdx_pack hbound, hgen]
      rw [if_pos hpos, if_pos hadmits, Bucket.getAt_of_holds hholds hfits]
      by_cases hkey : e.key = k
      · rw [if_pos hkey.symm, hfind.trans (if_pos ⟨hkey, hkept⟩)]
      · rw [if_neg (Ne.symm hkey), hfind.trans (if_neg fun hc => hkey hc.1)]
    · have hword : word a.removed e = none := if_neg hkept
      rw [hfind.trans (if_neg fun hc => hkept hc.2)]
      simp [hword]

end

/-! ### Runs -/

/-- One operation; `none` is a panic. -/
def PreBucket.step (sum64 : List UInt8 → UInt64) (b : PreBucket) : Op → Option PreBucket
  | .set k v h => (b.set k v h).map Prod.fst
  | .setMulti keys values => b.setMulti sum64 keys values
  | .get dst k h returnDst => (b.get dst k h returnDst).map fun _ => b
  | .del h => some (b.del h)
  | .reset => some b.reset

/-- A preallocated bucket as a transition system. -/
def preMachine (sum64 : List UInt8 → UInt64) : LTS PreBucket Op := ⟨PreBucket.step sum64⟩

/-- What the operations mean, for `n` chunks of which a trim removes `r`. -/
def logStep (n r : ℕ) (sum64 : List UInt8 → UInt64) (a : LogSpec) : Op → LogSpec
  | .set k v h => logWrite n r a h k v
  | .setMulti keys values =>
    (keys.zip values).foldl (fun a p => logWrite n r a (sum64 p.1) p.1 p.2) a
  | .get _ _ _ _ => a
  | .del h => a.erase h
  | .reset => .empty

/-- The map that a sequence of operations makes. -/
def logOf (n r : ℕ) (sum64 : List UInt8 → UInt64) (ops : List Op) : LogSpec :=
  ops.foldl (logStep n r sum64) .empty

section

variable {b : PreBucket} {a : LogSpec} {sum64 : List UInt8 → UInt64}

theorem Tracks.step (h : Tracks b a) {op : Op} (hop : op.Supplied) :
    ∃ b', b.step sum64 op = some b' ∧ b'.chunks.length = b.chunks.length ∧
      b'.trimRatio = b.trimRatio ∧
      Tracks b' (logStep b.chunks.length b.numOfChunksToRemove sum64 a op) := by
  cases op with
  | set k v hash =>
    obtain ⟨b', err, hset, hlen, hratio, h'⟩ := h.write k v hash
    exact ⟨b', by rw [PreBucket.step, hset, Option.map_some], hlen, hratio, h'⟩
  | setMulti keys values => exact h.setMulti sum64 hop
  | get dst k hash returnDst =>
    exact ⟨b, by rw [PreBucket.step, h.get, Option.map_some], rfl, rfl, h⟩
  | del hash => exact ⟨b.del hash, rfl, rfl, rfl, h.del hash⟩
  | reset => exact ⟨b.reset, rfl, rfl, rfl, h.reset⟩

/-- **A bucket and the map of its history stay related**, whatever is done. -/
theorem tracks_exec (ops : List Op) (hops : ∀ op ∈ ops, op.Supplied) (h : Tracks b a) :
    ∃ b', (preMachine sum64).exec b ops = some b' ∧ b'.chunks.length = b.chunks.length ∧
      b'.trimRatio = b.trimRatio ∧
      Tracks b' (ops.foldl (logStep b.chunks.length b.numOfChunksToRemove sum64) a) := by
  induction ops generalizing b a with
  | nil => exact ⟨b, rfl, rfl, rfl, h⟩
  | cons op ops ih =>
    obtain ⟨b₁, hstep, hlen, hratio, h₁⟩ :=
      @Tracks.step b a sum64 h op (hops op List.mem_cons_self)
    obtain ⟨b', hexec, hlen', hratio', h'⟩ :=
      ih (fun op' hop' => hops op' (List.mem_cons_of_mem _ hop')) h₁
    rw [numOfChunksToRemove_congr hlen hratio, hlen] at h'
    refine ⟨b', ?_, hlen'.trans hlen, hratio'.trans hratio, h'⟩
    exact Option.bind_eq_some_iff.2 ⟨b₁, hstep, hexec⟩

/-- `Get` finds the key, with this value. -/
def PreBucket.Finds (b : PreBucket) (k : List UInt8) (h : UInt64) (v : List UInt8) : Prop :=
  b.get [] k h true = some (v, true)

/-- The chunk to which the map entry of a hash points. -/
def PreBucket.chunkOf (b : PreBucket) (h : UInt64) : Option ℕ :=
  (b.m h).map fun w => wordIdx w / chunkSize

theorem Tracks.finds_iff (h : Tracks b a) (k : List UInt8) (hash : UInt64) (v : List UInt8) :
    b.Finds k hash v ↔ a.find chunkSize hash k = some v := by
  rw [PreBucket.Finds, h.get]
  cases a.find chunkSize hash k with
  | none => simp
  | some v' => simp

/-- `Get` finds a key if and only if the last pair of the hash is one of this key and its chunk is
kept, and then appends the value of that pair to the buffer. -/
def PreBucket.Answers (b : PreBucket) (a : LogSpec) : Prop :=
  ∀ dst k h returnDst, ∃ dst' found, b.get dst k h returnDst = some (dst', found) ∧
    (found = true ↔ ∃ e, a.last h = some e ∧ e.key = k ∧ a.Kept chunkSize e) ∧
    ∀ e, a.last h = some e → dst' = if found && returnDst then dst ++ e.value else dst

/-- A `Set` that succeeds is found at once; it leaves the other pairs as they are, or else it trims
the bucket, and exactly the pairs in the `r` lowest chunks are no longer found. -/
def PreBucket.TrimsLowest (b : PreBucket) (r : ℕ) : Prop :=
  ∀ k v h b', b.set k v h = some (b', none) → b'.Finds k h v ∧
    (b'.trimCount = b.trimCount ∧
      (∀ k' h' v', h' ≠ h → (b'.Finds k' h' v' ↔ b.Finds k' h' v')) ∨
    b'.trimCount = b.trimCount + 1 ∧
      ∀ k' h' v', h' ≠ h → (b'.Finds k' h' v' ↔
        b.Finds k' h' v' ∧ ∃ c, b.chunkOf h' = some c ∧ r ≤ c))

theorem Tracks.answers (h : Tracks b a) : b.Answers a := by
  intro dst k hash returnDst
  rw [h.get]
  cases hfind : a.find chunkSize hash k with
  | none =>
    refine ⟨dst, false, rfl, ?_, fun _ _ => rfl⟩
    simp only [Bool.false_eq_true, false_iff, not_exists]
    rintro e ⟨he, hkey, hkept⟩
    have hsome := LogMap.find_eq_some_iff.2 ⟨e, he, hkey, hkept, rfl⟩
    simp [hfind] at hsome
  | some v =>
    obtain ⟨e, he, hkey, hkept, rfl⟩ := LogMap.find_eq_some_iff.1 hfind
    refine ⟨_, true, rfl, iff_of_true rfl ⟨e, he, hkey, hkept⟩, fun e' he' => ?_⟩
    obtain rfl := Option.some.inj (he.symm.trans he')
    rfl

theorem Tracks.chunkOf (h : Tracks b a) {hash : UInt64} {e : LogPair} (he : a.last hash = some e)
    (hkept : a.removed ≤ e.off / chunkSize) :
    b.chunkOf hash = some (e.off / chunkSize - a.removed) := by
  obtain ⟨o, ho, hdiv, -⟩ := exists_off hkept
  obtain ⟨hbound, hword⟩ := h.word_eq he hkept ho
  rw [PreBucket.chunkOf, h.mirrors.m, he, Option.bind_some, hword, Option.map_some,
    wordIdx_pack hbound, hdiv, Nat.add_sub_cancel]

/-- **What a `Set` makes of the other pairs.** -/
theorem Tracks.trimsLowest (h : Tracks b a) : b.TrimsLowest b.numOfChunksToRemove := by
  intro k v hash b' hset
  have hfit : entryLen k v < chunkSize := by
    by_contra hlong
    obtain ⟨err, herr⟩ := preSet_too_long b hash (not_lt.1 hlong)
    simp [herr] at hset
  obtain ⟨b₁, hset₁, h₁, -, -, hcount⟩ := h.set hash hfit
  obtain rfl : b₁ = b' := by simpa using hset₁.symm.trans hset
  have hremove := remove_pos h.ratio_pos h.length_pos
  have hremove' : b.numOfChunksToRemove ≤ b.chunks.length := remove_le h.ratio_le
  -- the other pairs, by their chunks in the log
  have hother : ∀ k' hash' v', hash' ≠ hash → (b₁.Finds k' hash' v' ↔ ∃ e,
      a.last hash' = some e ∧ e.key = k' ∧ e.value = v' ∧
        removedAfter b a (entryLen k v) ≤ e.off / chunkSize) := by
    intro k' hash' v' hne
    rw [h₁.finds_iff, LogMap.find_insert_of_ne hne]
    rfl
  have hbefore : ∀ k' hash' v', b.Finds k' hash' v' ↔ ∃ e,
      a.last hash' = some e ∧ e.key = k' ∧ a.removed ≤ e.off / chunkSize ∧ e.value = v' :=
    fun k' hash' v' => (h.finds_iff k' hash' v').trans LogMap.find_eq_some_iff
  have hcases : removedAfter b a (entryLen k v) = a.removed ∨
      removedAfter b a (entryLen k v) = a.removed + b.numOfChunksToRemove := by
    unfold removedAfter LogMap.drops
    split_ifs
    · exact .inr rfl
    · exact .inl rfl
  refine ⟨?_, ?_⟩
  · rw [h₁.finds_iff]
    exact LogMap.find_insert_self h.wf hremove hremove' chunkSize_pos hash k v
  · rcases hcases with hsame | htrim
    · refine .inl ⟨by rw [hcount, if_pos hsame, Nat.add_zero], fun k' hash' v' hne => ?_⟩
      rw [hother k' hash' v' hne, hbefore, hsame]
      exact exists_congr fun e => and_congr_right fun _ => and_congr_right fun _ => and_comm
    · refine .inr ⟨by rw [hcount, if_neg (by omega)], fun k' hash' v' hne => ?_⟩
      rw [hother k' hash' v' hne, hbefore, htrim]
      constructor
      · rintro ⟨e, he, hkey, hvalue, hin⟩
        have hkept : a.removed ≤ e.off / chunkSize := by omega
        exact ⟨⟨e, he, hkey, hkept, hvalue⟩, _, h.chunkOf he hkept, by omega⟩
      · rintro ⟨⟨e, he, hkey, hkept, hvalue⟩, c, hc, hle⟩
        obtain rfl := Option.some.inj ((h.chunkOf he hkept).symm.trans hc)
        exact ⟨e, he, hkey, hvalue, by omega⟩

end

/-- `⌈n * ratio / 100⌉`. -/
def trimmedChunks (n ratio : ℕ) : ℕ := (n * ratio + 99) / 100

/-- **Trimming loses only the oldest chunks.**  For every number of chunks that `Init` admits, every
trim ratio from 1 to 100 and all operations: no access is out of bounds; `Get` finds a key if and
only if the last pair set for the hash since `Reset` is one of this key and its chunk has not been
removed since, and returns the bytes of that pair; and each trim removes the pairs of its
`⌈n * ratio / 100⌉` lowest chunks and no others. -/
theorem get_exact_trimmed (sum64 : List UInt8 → UInt64) {n ratio : ℕ} (hn : 1 ≤ n)
    (hsize : n * chunkSize < maxBucketSize) (hratio : 1 ≤ ratio) (hratio' : ratio ≤ 100)
    (ops : List Op) (hops : ∀ op ∈ ops, op.Supplied) :
    ∃ b₀ b, PreBucket.init none (n * chunkSize) ratio = some (.ok b₀) ∧
      (preMachine sum64).exec b₀ ops = some b ∧ b.chunks.length = n ∧
      b.Answers (logOf n (trimmedChunks n ratio) sum64 ops) ∧
      b.TrimsLowest (trimmedChunks n ratio) := by
  obtain ⟨b₀, hinit, hlen₀, -⟩ := PreBucket.init_mul hn hsize ratio
  obtain ⟨h₀, hr₀⟩ := tracks_init hratio hratio' hinit
  obtain ⟨b, hexec, hlen, hr, h⟩ := @tracks_exec b₀ .empty sum64 ops hops h₀
  have hremove : b₀.numOfChunksToRemove = trimmedChunks n ratio := by
    rw [PreBucket.numOfChunksToRemove, hlen₀, hr₀, trimmedChunks]
  have htrims := h.trimsLowest
  rw [numOfChunksToRemove_congr hlen hr, hremove] at htrims
  rw [hremove, hlen₀] at h
  exact ⟨b₀, b, hinit, hexec, hlen.trans hlen₀, h.answers, htrims⟩

/-- Two chunks, and three pairs that each take one: the third `Set` trims the first pair away, and
the second moves down. -/
theorem get_exact_trimmed_two_chunks :
    ∃ b₀ b v, PreBucket.init none (2 * chunkSize) 2 = some (.ok b₀) ∧ v.length = 600 ∧
      (preMachine fun _ => 0).exec b₀ [.set [1] v 7, .set [2] v 8, .set [3] v 9] = some b ∧
      b.get [] [3] 9 true = some (v, true) ∧ b.get [] [2] 8 true = some (v, true) ∧
      b.get [] [1] 7 true = some ([], false) := by
  obtain ⟨v, hv⟩ : ∃ v : List UInt8, v.length = 600 :=
    ⟨List.replicate 600 5, List.length_replicate⟩
  obtain ⟨b₀, b, hinit, hexec, -, hanswers, -⟩ := @get_exact_trimmed (fun _ => 0) 2 2 (by decide)
    (by decide) (by decide) (by decide) [.set [1] v 7, .set [2] v 8, .set [3] v 9]
    (by simp [Op.Supplied])
  have hlen : ∀ i : UInt8, entryLen [i] v = 605 := by
    intro i
    rw [entryLen, Bucket.length_encode, hv]
    rfl
  have hchunk : chunkSize = 1024 := rfl
  have hlog : logOf 2 (trimmedChunks 2 2) (fun _ => 0) [.set [1] v 7, .set [2] v 8, .set [3] v 9] =
      ⟨2653, 1, Function.update (Function.update (Function.update (fun _ => none)
        7 (some ⟨[1], v, 0⟩)) 8 (some ⟨[2], v, 1024⟩)) 9 (some ⟨[3], v, 2048⟩)⟩ := by
    have hfit : 605 < chunkSize := by omega
    simp only [logOf, List.foldl_cons, List.foldl_nil, logStep, logWrite, hlen, if_pos hfit]
    simp [LogMap.insert, LogMap.place, LogMap.drops, LogMap.empty, trimmedChunks, hchunk]
  rw [hlog] at hanswers
  have hget : ∀ (k : List UInt8) (h : UInt64) (off : ℕ), 1024 ≤ off →
      Function.update (Function.update (Function.update (fun _ => none)
        7 (some ⟨[1], v, 0⟩)) 8 (some ⟨[2], v, 1024⟩)) 9 (some ⟨[3], v, 2048⟩) h =
          some (⟨k, v, off⟩ : LogPair) →
      b.get [] k h true = some (v, true) := by
    intro k h off hoff hlast
    obtain ⟨dst, found, hb, hfound, hvalue⟩ := hanswers [] k h true
    have hkept : 1 ≤ off / chunkSize := by
      rw [hchunk]
      omega
    obtain rfl : found = true := hfound.2 ⟨_, hlast, rfl, hkept⟩
    rw [hb, hvalue _ hlast]
    rfl
  refine ⟨b₀, b, v, hinit, hv, hexec, hget [3] 9 2048 (by decide) rfl,
    hget [2] 8 1024 (by decide) rfl, ?_⟩
  obtain ⟨dst, found, hb, hfound, hvalue⟩ := hanswers [] [1] 7 true
  obtain rfl : found = false := by
    refine Bool.eq_false_iff.2 fun htrue => ?_
    obtain ⟨e, he, -, hin⟩ := hfound.1 htrue
    obtain rfl := Option.some.inj he
    have hlost : ¬ 1 ≤ 0 / chunkSize := by simp
    exact hlost hin
  rw [hb, hvalue _ rfl]
  rfl

end Cache

end MerkleService
