import MerkleService.Cache.Refinement
import MerkleService.LTS.Basic

/-!
# Runs of a bucket

Any sequence of `Set`, `SetMulti`, `Get`, `Del` and `Reset` on a bucket with allocation on demand,
when memory can be mapped.  The sequence determines an abstract map (`specOf`): for each hash the
last pair that was set since the last `Reset` or `Del`, with its slot, and the write position.

* `refines_exec` : a bucket and the map of its history stay related.
* `get_exact` : **a bucket is an exact bounded map**: `Get` finds a key if and only if the last pair
  of the hash is one of this key and its slot is live, and returns the bytes of that pair; nothing
  panics.
-/

namespace MerkleService

namespace Cache

/-! ### Operations -/

inductive Op where
  | set (k v : List UInt8) (h : UInt64)
  | setMulti (keys values : List (List UInt8))
  | get (dst k : List UInt8) (h : UInt64) (returnDst : Bool)
  | del (h : UInt64)
  | reset

/-- `SetMulti` is given a value for each key. -/
def Op.Supplied : Op → Prop
  | .setMulti keys values => keys.length ≤ values.length
  | _ => True

section

variable (kind : Kind) (sum64 : List UInt8 → UInt64)

/-- One operation; `none` is a panic. -/
def Bucket.step (b : Bucket) : Op → Option Bucket
  | .set k v h => (b.set kind none k v h).map Prod.fst
  | .setMulti keys values => b.setMulti kind sum64 (fun _ => none) keys values
  | .get dst k h returnDst => (b.get dst k h returnDst).map fun _ => b
  | .del h => some (b.del h)
  | .reset => some b.reset

/-- A bucket as a transition system. -/
def bucketMachine : LTS Bucket Op := ⟨Bucket.step kind sum64⟩

end

/-! ### What the operations mean -/

/-- A pair is set in a ring of `n` chunks; a pair whose record is too long is refused. -/
def write (n : ℕ) (a : Spec) (h : UInt64) (k v : List UInt8) : Spec :=
  if entryLen k v < chunkSize then a.insert chunkSize n h k v (entryLen k v) else a

def specStep (n : ℕ) (sum64 : List UInt8 → UInt64) (a : Spec) : Op → Spec
  | .set k v h => write n a h k v
  | .setMulti keys values => (keys.zip values).foldl (fun a p => write n a (sum64 p.1) p.1 p.2) a
  | .get _ _ _ _ => a
  | .del h => a.erase h
  | .reset => .empty

/-- The map that a sequence of operations makes. -/
def specOf (n : ℕ) (sum64 : List UInt8 → UInt64) (ops : List Op) : Spec :=
  ops.foldl (specStep n sum64) .empty

/-! ### The other operations refine -/

variable {kind : Kind} {sum64 : List UInt8 → UInt64} {b : Bucket} {a : Spec}

theorem Refines.del (h : Refines 1 b a) (hash : UInt64) :
    Refines 1 (b.del hash) (a.erase hash) := by
  have hm : ∀ h', (b.del hash).m h' = if h' = hash then none else b.m h' :=
    fun _ => Function.update_apply ..
  refine ⟨h.owned.congr rfl rfl rfl rfl rfl rfl, h.bound, h.wf.erase hash, h.idx, h.gen, h.used,
    h.filled, ?_, ?_⟩
  · intro h' w hw
    rw [hm] at hw
    rw [RingMap.last_erase]
    split_ifs at hw ⊢
    exact h.word h' w hw
  · intro h' e he hlive
    rw [RingMap.last_erase] at he
    rw [hm]
    split_ifs at he ⊢
    exact h.live h' e he hlive

theorem refines_reset (h : b.Owned) (hn : 0 < b.chunks.length)
    (hbound : b.chunks.length * chunkSize ≤ 2 ^ bucketSizeBits) : Refines 1 b.reset .empty := by
  have hlen : b.reset.chunks.length = b.chunks.length := by simp [Bucket.reset, Bucket.putChunks]
  have harrays : b.reset.arrays = [] := by
    simp [Bucket.reset, Bucket.putChunks, Bucket.arrays]
  refine ⟨⟨?_, h.allocated, ?_, h.size, h.slab, ?_⟩, ?_, ?_, rfl, ?_, ?_, ?_, ?_, ?_⟩
  · rw [harrays, List.nil_append]
    exact List.perm_append_comm.trans h.perm
  · rw [hlen]
    exact h.le
  · rw [hlen]
    exact h.bound
  · rw [hlen]
    exact hbound
  · rw [hlen]
    exact RingMap.wellFormed_empty hn
  · have hgen : 1 % 2 ^ genSizeBits = genCycle maxGen 0 := by decide
    exact hgen
  · intro slot hslot
    obtain ⟨-, -, rfl⟩ := List.mem_map.1 (List.mem_of_getElem? hslot)
    rfl
  · intro i hi
    simp [Bucket.reset] at hi
  · intro h' w hw
    cases hw
  · intro h' e he
    cases he

theorem calcMaxSlabChunks_pos (maxBucketBytes : ℕ) {maxChunks : ℕ} (h : 0 < maxChunks) :
    0 < calcMaxSlabChunks maxBucketBytes maxChunks := by
  unfold calcMaxSlabChunks minSlabChunks chunksPerAlloc
  dsimp only
  split_ifs <;> omega

theorem refines_init {maxBytes : ℕ} (hinit : Bucket.init maxBytes = .ok b) :
    Refines 1 b .empty := by
  unfold Bucket.init at hinit
  split_ifs at hinit with hzero hbig
  obtain rfl := Except.ok.inj hinit
  have hpos : 0 < if maxBytes / chunkSize = 0 then 1 else maxBytes / chunkSize := by
    split_ifs with hn
    · exact Nat.one_pos
    · exact Nat.pos_of_ne_zero hn
  have hbound : (if maxBytes / chunkSize = 0 then 1 else maxBytes / chunkSize) * chunkSize ≤
      2 ^ bucketSizeBits := by
    split_ifs
    · decide
    · exact (Nat.div_mul_le_self _ _).trans (not_le.1 hbig).le
  have hlen : (if maxBytes / chunkSize = 0 then 1 else maxBytes / chunkSize) < 2 ^ 64 :=
    calc _ ≤ _ * chunkSize := Nat.le_mul_of_pos_right _ (by decide)
      _ ≤ 2 ^ bucketSizeBits := hbound
      _ < 2 ^ 64 := by decide
  refine refines_reset ⟨?_, rfl, by simp, by simp, calcMaxSlabChunks_pos _ hpos, ?_⟩ ?_ ?_
  · simp [Bucket.arrays]
  · simpa using hlen
  · simpa using hpos
  · simpa using hbound

theorem Refines.write (hkind : kind.Sound) (h : Refines 1 b a) (k v : List UInt8) (hash : UInt64) :
    ∃ (b' : Bucket) (err : Option String), b.set kind none k v hash = some (b', err) ∧
      b'.chunks.length = b.chunks.length ∧
      Refines 1 b' (Cache.write b.chunks.length a hash k v) := by
  unfold Cache.write
  split_ifs with hfit
  · obtain ⟨b', hset, hlen, hb'⟩ := h.set hkind hash hfit
    exact ⟨b', none, hset, hlen, hb'⟩
  · obtain ⟨err, hset⟩ := set_too_long kind none b hash (not_lt.1 hfit)
    exact ⟨b, some err, hset, rfl, h⟩

theorem Refines.setMulti (hkind : kind.Sound) (h : Refines 1 b a) {keys values : List (List UInt8)}
    (hlen : keys.length ≤ values.length) :
    ∃ b', b.setMulti kind sum64 (fun _ => none) keys values = some b' ∧
      b'.chunks.length = b.chunks.length ∧
      Refines 1 b' (specStep b.chunks.length sum64 a (.setMulti keys values)) := by
  induction keys generalizing b a values with
  | nil => exact ⟨b, rfl, rfl, h⟩
  | cons k keys ih =>
    obtain _ | ⟨v, values⟩ := values
    · simp at hlen
    · obtain ⟨b₁, err, hset, hlen₁, h₁⟩ := h.write hkind k v (sum64 k)
      have hle : keys.length ≤ values.length := by simpa using hlen
      obtain ⟨b', hmulti, hlen', h'⟩ := ih h₁ hle
      refine ⟨b', ?_, hlen'.trans hlen₁, ?_⟩
      · simp only [Bucket.setMulti, Option.bind_eq_bind, hset, Option.bind_some]
        exact hmulti
      · rw [hlen₁] at h'
        exact h'

/-! ### Runs -/

/-- One operation keeps a bucket related to the map, and does not panic. -/
theorem Refines.step (hkind : kind.Sound) (h : Refines 1 b a) {op : Op} (hop : op.Supplied) :
    ∃ b', b.step kind sum64 op = some b' ∧ b'.chunks.length = b.chunks.length ∧
      Refines 1 b' (specStep b.chunks.length sum64 a op) := by
  cases op with
  | set k v hash =>
    obtain ⟨b', err, hset, hlen, h'⟩ := h.write hkind k v hash
    exact ⟨b', by rw [Bucket.step, hset, Option.map_some], hlen, h'⟩
  | setMulti keys values => exact h.setMulti hkind hop
  | get dst k hash returnDst => exact ⟨b, by rw [Bucket.step, h.get, Option.map_some], rfl, h⟩
  | del hash => exact ⟨b.del hash, rfl, rfl, h.del hash⟩
  | reset =>
    refine ⟨b.reset, rfl, ?_, refines_reset h.owned h.length_pos h.bound⟩
    simp [Bucket.reset, Bucket.putChunks]

/-- **A bucket and the map of its history stay related**, whatever is done. -/
theorem refines_exec (hkind : kind.Sound) (ops : List Op) (hops : ∀ op ∈ ops, op.Supplied)
    (h : Refines 1 b a) :
    ∃ b', (bucketMachine kind sum64).exec b ops = some b' ∧
      Refines 1 b' (ops.foldl (specStep b.chunks.length sum64) a) := by
  induction ops generalizing b a with
  | nil => exact ⟨b, rfl, h⟩
  | cons op ops ih =>
    obtain ⟨b₁, hstep, hlen, h₁⟩ := h.step hkind (hops op List.mem_cons_self)
    obtain ⟨b', hexec, h'⟩ := ih (fun op' hop' => hops op' (List.mem_cons_of_mem _ hop')) h₁
    refine ⟨b', ?_, hlen ▸ h'⟩
    exact Option.bind_eq_some_iff.2 ⟨b₁, hstep, hexec⟩

theorem Refines.get_iff (h : Refines 1 b a) (dst k : List UInt8) (hash : UInt64)
    (returnDst : Bool) :
    ∃ dst' found, b.get dst k hash returnDst = some (dst', found) ∧
      (found = true ↔ ∃ e, a.last hash = some e ∧ e.key = k ∧ a.cur.Live e.slot) ∧
      ∀ e, a.last hash = some e → dst' = if found && returnDst then dst ++ e.value else dst := by
  rw [h.get]
  cases hfind : a.find hash k with
  | none =>
    refine ⟨dst, false, rfl, ?_, fun _ _ => rfl⟩
    simp only [Bool.false_eq_true, false_iff, not_exists]
    rintro e ⟨he, hkey, hlive⟩
    have hsome := RingMap.find_eq_some_iff.2 ⟨e, he, hkey, hlive, rfl⟩
    simp [hfind] at hsome
  | some v =>
    obtain ⟨e, he, hkey, hlive, rfl⟩ := RingMap.find_eq_some_iff.1 hfind
    refine ⟨_, true, rfl, iff_of_true rfl ⟨e, he, hkey, hlive⟩, fun e' he' => ?_⟩
    obtain rfl := Option.some.inj (he.symm.trans he')
    rfl

theorem Refines.get_set (hkind : kind.Sound) (h : Refines 1 b a) (k v : List UInt8)
    (hash : UInt64) :
    ∃ b' err, b.set kind none k v hash = some (b', err) ∧
      (err = none ↔ entryLen k v < chunkSize) ∧
      (err = none → ∀ dst, b'.get dst k hash true = some (dst ++ v, true)) := by
  by_cases hfit : entryLen k v < chunkSize
  · obtain ⟨b', hset, -, h'⟩ := h.set hkind hash hfit
    refine ⟨b', none, hset, iff_of_true rfl hfit, fun _ dst => ?_⟩
    rw [h'.get, RingMap.find_insert_self]
    rfl
  · obtain ⟨err, hset⟩ := set_too_long kind none b hash (not_lt.1 hfit)
    exact ⟨b, some err, hset, iff_of_false (by simp) hfit, fun hnone => by cases hnone⟩

/-- **A bucket is an exact bounded map.**  After any operations: no access is out of bounds; `Get`
finds a key if and only if the last pair of the hash since `Reset` or `Del` is one of this key and
its slot is live, that is of the current generation, or of the one before at an offset not below the
write position; it then appends the bytes of that pair to the buffer; and a pair that is set, which
is one whose record is shorter than a chunk, is found at once. -/
theorem get_exact (sum64 : List UInt8 → UInt64) {maxBytes : ℕ} {b₀ : Bucket}
    (hinit : Bucket.init maxBytes = .ok b₀) (ops : List Op) (hops : ∀ op ∈ ops, op.Supplied) :
    ∃ b, (bucketMachine bucketUnallocated sum64).exec b₀ ops = some b ∧
      b.idx = (specOf b₀.chunks.length sum64 ops).cur.off ∧
      (∀ dst k h returnDst, ∃ dst' found, b.get dst k h returnDst = some (dst', found) ∧
        (found = true ↔ ∃ e, (specOf b₀.chunks.length sum64 ops).last h = some e ∧ e.key = k ∧
          (specOf b₀.chunks.length sum64 ops).cur.Live e.slot) ∧
        ∀ e, (specOf b₀.chunks.length sum64 ops).last h = some e →
          dst' = if found && returnDst then dst ++ e.value else dst) ∧
      ∀ k v h, ∃ b' err, b.set bucketUnallocated none k v h = some (b', err) ∧
        (err = none ↔ entryLen k v < chunkSize) ∧
        (err = none → ∀ dst, b'.get dst k h true = some (dst ++ v, true)) := by
  obtain ⟨b, hexec, h⟩ := refines_exec bucketUnallocated_sound ops hops (refines_init hinit)
  exact ⟨b, hexec, h.idx, h.get_iff, h.get_set bucketUnallocated_sound⟩

/-- One chunk, two keys with the same hash: the second `Set` takes the entry of the first one. -/
theorem get_exact_collision :
    ∃ b₀ b, Bucket.init 1 = .ok b₀ ∧
      (bucketMachine bucketUnallocated fun _ => 7).exec b₀
        [.set [1] [2] 7, .reset, .setMulti [[1], [3]] [[4], [5]], .del 8] = some b ∧
      b.get [] [3] 7 true = some ([5], true) ∧ b.get [] [1] 7 true = some ([], false) := by
  have hinit : Bucket.init 1 = .ok _ := rfl
  obtain ⟨b, hexec, -, hget, -⟩ := get_exact (fun _ => 7) hinit
    [.set [1] [2] 7, .reset, .setMulti [[1], [3]] [[4], [5]], .del 8] (by simp [Op.Supplied])
  refine ⟨_, b, hinit, hexec, ?_, ?_⟩
  · obtain ⟨dst, found, hb, hfound, hvalue⟩ := hget [] [3] 7 true
    obtain rfl : found = true := hfound.2 ⟨_, rfl, rfl, by decide⟩
    rw [hb, hvalue _ rfl]
    rfl
  · obtain ⟨dst, found, hb, hfound, hvalue⟩ := hget [] [1] 7 true
    obtain rfl : found = false := by
      refine Bool.eq_false_iff.2 fun htrue => ?_
      obtain ⟨e, he, hkey, -⟩ := hfound.1 htrue
      obtain rfl := Option.some.inj he
      revert hkey
      decide
    rw [hb, hvalue _ rfl]
    rfl

end Cache

end MerkleService
