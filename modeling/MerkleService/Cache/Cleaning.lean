import MerkleService.Cache.OnDemand

/-!
# Cleaning the map of a bucket

When writing starts over, `Set` of a bucket with allocation on demand ends with `cleanLockedMap`,
which is to remove from the map the entries that `Get` would reject.  The test of `Get` stands there
twice more, and in the first pass of `bucketTrimmed` its parentheses are misplaced: an entry of the
generation before is counted even where it has been written over.  When such entries are all that
could be removed, the map is left as it is.

* `CleansExactly` : the map has kept the entries that `Get` accepts, and no others.
* `OnDemand.CleansWhen` : the condition for it, on the state before the `Set`.
* `cleansExactly_iff_cleansWhen` : **after every `Set` that wraps, in every state that can be
  reached, the map holds exactly the live entries if and only if the condition holds**.
-/

namespace MerkleService

namespace Cache

/-- `Set` of the pair starts over at the beginning of the ring. -/
def Bucket.Wraps (b : Bucket) (k v : List UInt8) : Prop :=
  entryLen k v < chunkSize ∧ b.idx / chunkSize < (b.idx + entryLen k v) / chunkSize ∧
    b.chunks.length ≤ (b.idx + entryLen k v) / chunkSize

instance (b : Bucket) (k v : List UInt8) : Decidable (b.Wraps k v) :=
  inferInstanceAs (Decidable (_ ∧ _ ∧ _))

/-- The test of `Get` on a word. -/
def Bucket.Accepts (b : Bucket) (w : ℕ) : Prop := b.admits (wordGen w) (wordIdx w) = true

/-- The map when a pair has been entered at the beginning of the ring, and before it is cleaned. -/
def Bucket.entered (b : Bucket) (h : UInt64) : UInt64 → Option ℕ :=
  Function.update b.m h (some (pack 0 (Bucket.nextGen b.gen)))

/-- Of the entries `m`, the bucket has kept those that `Get` accepts, and no others. -/
structure CleansExactly (m : UInt64 → Option ℕ) (b : Bucket) : Prop where
  live : ∀ h w, b.m h = some w → b.Accepts w
  kept : ∀ h w, m h = some w → b.Accepts w → b.m h = some w

/-- When the map is clean after a `Set` that wraps: the generation is the last one before the count
starts over, or another hash has an entry of an earlier generation, or no other hash has an entry
that the new record is written over. -/
def OnDemand.CleansWhen : OnDemand → Bucket → (k v : List UInt8) → (h : UInt64) → Prop
  | .unallocated, _, _, _, _ => True
  | .trimmed, b, k, v, h =>
    b.bGen = maxGen ∨ (∃ h' w, h' ≠ h ∧ b.m h' = some w ∧ wordGen w ≠ b.bGen) ∨
      ∀ h' w, h' ≠ h → b.m h' = some w → entryLen k v ≤ wordIdx w

/-! ### The two passes -/

section

variable {b : Bucket} {a : Spec}

theorem OnDemand.keeps_iff (T : OnDemand) (b : Bucket) (w : ℕ) :
    T.kind.keeps (wordGen w) (wordIdx w) b.bGen b.idx = true ↔ b.Accepts w := by
  cases T with
  | unallocated =>
    simp only [kind, bucketUnallocated, Bucket.Accepts, Bucket.admits, decide_eq_true_iff]
    omega
  | trimmed =>
    simp only [kind, bucketTrimmed, Bucket.Accepts, Bucket.admits, decide_eq_true_iff]
    omega

theorem OnDemand.cleansExactly_cleanLockedMap (T : OnDemand) (b : Bucket) :
    CleansExactly b.m (T.cleanLockedMap b) ↔
      (∃ h w, b.m h = some w ∧ T.counts (wordGen w) (wordIdx w) b.bGen b.idx = false) ∨
        ∀ h w, b.m h = some w → b.Accepts w := by
  rw [← newItems_lt_iff]
  by_cases hlt : T.newItems b < b.mapSize
  · refine iff_of_true ?_ (Or.inl hlt)
    unfold cleanLockedMap
    rw [if_pos hlt]
    constructor
    · intro h w hw
      exact (T.keeps_iff b w).1 (Option.filter_eq_some_iff.1 hw).2
    · intro h w hw hacc
      exact Option.filter_eq_some_iff.2 ⟨hw, (T.keeps_iff b w).2 hacc⟩
  · rw [or_iff_right hlt]
    unfold cleanLockedMap
    rw [if_neg hlt]
    exact ⟨fun hclean => hclean.live, fun hall => ⟨hall, fun _ _ hw _ => hw⟩⟩

theorem cleansExactly_unallocated (b : Bucket) :
    CleansExactly b.m (OnDemand.unallocated.cleanLockedMap b) := by
  rw [OnDemand.cleansExactly_cleanLockedMap]
  by_cases hall : ∀ h w, b.m h = some w → b.Accepts w
  · exact Or.inr hall
  · push Not at hall
    obtain ⟨h, w, hw, hacc⟩ := hall
    refine Or.inl ⟨h, w, hw, Bool.eq_false_iff.2 fun hcounts => hacc ?_⟩
    exact (OnDemand.unallocated.keeps_iff b w).1 hcounts

/-! ### A `Set` that wraps -/

theorem Refines.wordGen_cases (h : Refines 1 b a) {hash : UInt64} {w : ℕ}
    (hw : b.m hash = some w) :
    0 < wordGen w ∧ wordGen w ≤ maxGen ∧
      (wordGen w = b.bGen ∨ b.bGen = if wordGen w = maxGen then 1 else wordGen w + 1) := by
  obtain ⟨e, he, rfl, hage⟩ := h.word hash w hw
  have hbefore := h.wf.before hash e he
  rw [wordGen_slotWord (h.off_lt he), h.bGen_eq]
  refine ⟨genCycle_pos _, genCycle_le (by decide) _, ?_⟩
  rcases hage.lt_or_eq with hlt | hold
  · unfold Slot.Before at hbefore
    exact Or.inl (congrArg (genCycle maxGen) (by omega))
  · rw [hold]
    exact Or.inr (genCycle_succ (by decide) _)

/-- What the tests of `bucketTrimmed` say, after the bucket has been wrapped, of an entry of the
generation that has ended, and of an older one. -/
theorem trimmed_tests {gen idx bGen len : ℕ} (hpos : 0 < gen) (hle : gen ≤ maxGen)
    (hgen : gen = bGen ∨ bGen = if gen = maxGen then 1 else gen + 1)
    {next : ℕ} (hnext : next = if bGen = maxGen then 1 else bGen + 1) :
    (OnDemand.trimmed.counts gen idx next len = false ↔
      gen ≠ bGen ∨ bGen = maxGen ∧ idx < len) ∧
    ((gen = next ∧ idx < len ∨ gen + 1 = next ∧ len ≤ idx ∨
      gen = maxGen ∧ next = 1 ∧ len ≤ idx) ↔ gen = bGen ∧ len ≤ idx) := by
  have hmax : 3 ≤ maxGen := by decide
  simp only [OnDemand.counts, decide_eq_false_iff_not]
  split_ifs at hgen hnext <;> constructor <;> omega

variable {k v : List UInt8}

theorem Refines.nextGen_mod (h : Refines 1 b a) :
    Bucket.nextGen b.gen % 2 ^ genSizeBits = genCycle maxGen (a.cur.gen + 1) := by
  rw [Cache.nextGen_mod, h.gen, genCycle_succ (by decide)]

/-- A `Set` that wraps always finds a chunk; it enters the pair at the beginning of the ring and
cleans the map. -/
theorem Refines.set_wraps (T : OnDemand) (h : Refines 1 b a) (hwraps : b.Wraps k v)
    (mmapErr : Option String) (hash : UInt64) :
    ∃ b' : Bucket, T.set mmapErr b k v hash = some (T.cleanLockedMap b', none) ∧
      b'.m = b.entered hash ∧ b'.idx = entryLen k v ∧
      b'.bGen = if b.bGen = maxGen then 1 else b.bGen + 1 := by
  obtain ⟨hfit, hcross, hroom⟩ := hwraps
  rw [h.idx] at hcross hroom
  have hplace : a.cur.place chunkSize b.chunks.length (entryLen k v) = ⟨a.cur.gen + 1, 0⟩ := by
    rw [Slot.place, if_neg hcross.ne', if_neg hroom.not_gt]
  obtain ⟨b', c, hready, hset⟩ | ⟨err, -, -, -, hnone⟩ := h.set_eq T mmapErr hash hfit hplace
  · have href := hready.refines hash 2 le_rfl
    have hgen := href.gen
    rw [if_pos (by simp)] at hset
    refine ⟨_, hset, ?_, Nat.zero_add _, ?_⟩
    · have hpack : pack 0 b'.gen = pack 0 (Bucket.nextGen b.gen) := by
        have hcur : b'.gen % 2 ^ genSizeBits = genCycle maxGen (a.cur.gen + 1) := by
          rw [RingMap.insert, Slot.advance, hplace] at hgen
          exact hgen
        rw [pack_eq (Nat.two_pow_pos _), pack_eq (Nat.two_pow_pos _), hcur, h.nextGen_mod]
      rw [Bucket.entered, ← hready.m, ← hpack]
      rfl
    · rw [href.bGen_eq, h.bGen_eq, ← genCycle_succ (by decide), RingMap.insert, Slot.advance,
        hplace]
  · obtain ⟨-, hallocated⟩ := h.allocated hfit hcross.ne'
    obtain ⟨c, hc⟩ := hallocated 0 (Nat.zero_le _)
    rw [Nat.zero_div, hc] at hnone
    cases hnone

theorem Refines.trimmed_entries (h : Refines 1 b a) {hash : UInt64} {b' : Bucket}
    (hm : b'.m = b.entered hash) (hidx : b'.idx = entryLen k v)
    (hgen : b'.bGen = if b.bGen = maxGen then 1 else b.bGen + 1) {hash' : UInt64} {w : ℕ}
    (hw : b'.m hash' = some w) :
    (hash' = hash ∧ OnDemand.trimmed.counts (wordGen w) (wordIdx w) b'.bGen b'.idx = true ∧
        b'.Accepts w) ∨
      hash' ≠ hash ∧ b.m hash' = some w ∧
        (OnDemand.trimmed.counts (wordGen w) (wordIdx w) b'.bGen b'.idx = false ↔
          wordGen w ≠ b.bGen ∨ b.bGen = maxGen ∧ wordIdx w < entryLen k v) ∧
        (b'.Accepts w ↔ wordGen w = b.bGen ∧ entryLen k v ≤ wordIdx w) := by
  rw [hm, Bucket.entered, Function.update_apply] at hw
  split_ifs at hw with heq
  · refine Or.inl ⟨heq, ?_⟩
    obtain rfl := Option.some.inj hw
    have hpos : 0 < entryLen k v := by
      rw [entryLen, Bucket.length_encode]
      omega
    have hwGen : wordGen (pack 0 (Bucket.nextGen b.gen)) = b'.bGen := by
      rw [wordGen_pack (Nat.two_pow_pos _), Cache.nextGen_mod, hgen, b.bGen_eq]
    have hsame : wordGen (pack 0 (Bucket.nextGen b.gen)) = b'.bGen ∧
        wordIdx (pack 0 (Bucket.nextGen b.gen)) < b'.idx := by
      refine ⟨hwGen, ?_⟩
      rw [wordIdx_pack (Nat.two_pow_pos _), hidx]
      exact hpos
    exact ⟨decide_eq_true (Or.inr hsame), decide_eq_true (Or.inl hsame)⟩
  · refine Or.inr ⟨heq, hw, ?_⟩
    obtain ⟨hpos, hle, hcases⟩ := h.wordGen_cases hw
    have htests := @trimmed_tests _ (wordIdx w) _ (entryLen k v) hpos hle hcases _ hgen
    rw [Bucket.Accepts, Bucket.admits, decide_eq_true_iff, hidx]
    exact htests

/-- **When the map is clean after a `Set` that wraps.** -/
theorem Refines.cleansExactly_iff (T : OnDemand) (h : Refines 1 b a) (hwraps : b.Wraps k v)
    (mmapErr : Option String) (hash : UInt64) :
    ∃ b', T.set mmapErr b k v hash = some (b', none) ∧
      (CleansExactly (b.entered hash) b' ↔ T.CleansWhen b k v hash) := by
  obtain ⟨b', hset, hm, hidx, hgen⟩ := h.set_wraps T hwraps mmapErr hash
  refine ⟨_, hset, ?_⟩
  rw [← hm]
  cases T with
  | unallocated => exact iff_of_true (cleansExactly_unallocated b') trivial
  | trimmed =>
    have hentries := @Refines.trimmed_entries b a k v h hash b' hm hidx hgen
    have hother : ∀ h' w, h' ≠ hash → b.m h' = some w → b'.m h' = some w := by
      intro h' w hne hw
      rwa [hm, Bucket.entered, Function.update_of_ne hne]
    rw [OnDemand.cleansExactly_cleanLockedMap]
    constructor
    · rintro (⟨h', w, hw, hcounts⟩ | hall)
      · obtain ⟨-, hnew, -⟩ | ⟨hne, hw', hiff, -⟩ := hentries hw
        · simp [hcounts] at hnew
        · rcases hiff.1 hcounts with hold | ⟨hmax, -⟩
          · exact Or.inr (Or.inl ⟨h', w, hne, hw', hold⟩)
          · exact Or.inl hmax
      · refine Or.inr (Or.inr fun h' w hne hw' => ?_)
        obtain ⟨rfl, -⟩ | ⟨-, -, -, hiff⟩ := hentries (hother h' w hne hw')
        · exact absurd rfl hne
        · exact (hiff.1 (hall h' w (hother h' w hne hw'))).2
    · intro hwhen
      by_contra hnot
      push Not at hnot
      obtain ⟨hcounted, h', w, hw, hacc⟩ := hnot
      -- an entry that stays in the map though it is rejected
      obtain ⟨-, -, hnew⟩ | ⟨hne, hw', hcounts, hiff⟩ := hentries hw
      · exact hacc hnew
      · have hcount := mt hcounts.2 (hcounted h' w hw)
        have hreject := mt hiff.2 hacc
        rcases hwhen with hmax | ⟨h'', w', hne', hw'', hold⟩ | hbehind
        · omega
        · obtain ⟨rfl, -⟩ | ⟨-, -, hcounts', -⟩ := hentries (hother h'' w' hne' hw'')
          · exact hne' rfl
          · exact hcounted h'' w' (hother h'' w' hne' hw'') (hcounts'.2 (Or.inl hold))
        · have := hbehind h' w hne hw'
          omega

end

/-! ### Runs -/

theorem run_one_chunk (T : OnDemand) {v : List UInt8} (hv : v.length = 600) :
    ∃ b₀ b a, Bucket.init 1 = .ok b₀ ∧
      (T.machine fun _ => 0).run (some b₀) [.set none [1] v 7] = some b ∧ Refines 1 b a ∧
      b.Wraps [2] v ∧ b.bGen = 1 ∧ ∀ h w, b.m h = some w ↔ h = 7 ∧ w = slotWord ⟨0, 0⟩ := by
  have hlen : ∀ i : UInt8, entryLen [i] v = 605 := by
    intro i
    rw [entryLen, Bucket.length_encode, hv]
    rfl
  have hchunk : chunkSize = 1024 := rfl
  obtain ⟨b₀, hinit, hlength₀⟩ : ∃ b₀, Bucket.init 1 = .ok b₀ ∧ b₀.chunks.length = 1 :=
    ⟨_, rfl, rfl⟩
  obtain ⟨b, hset, -, hlength, href⟩ | ⟨err, -, -, hwhy⟩ :=
    (refines_init hinit).setOnDemand T none [1] v 7
  · have hcur : (RingMap.empty.insert chunkSize 1 7 [1] v (entryLen [1] v) : Spec).cur =
        ⟨0, 605⟩ := by
      simp [RingMap.insert, Slot.advance, Slot.place, RingMap.empty, hlen, hchunk]
    have hlast : ∀ h, (RingMap.empty.insert chunkSize 1 7 [1] v (entryLen [1] v) : Spec).last h =
        if h = 7 then some ⟨[1], v, ⟨0, 0⟩⟩ else none := by
      intro h
      rw [RingMap.last_insert]
      simp [Slot.place, RingMap.empty, hlen, hchunk]
    rw [hlength₀] at hlength href
    have hidx := href.idx
    rw [hcur] at hidx
    refine ⟨b₀, b, _, hinit, ?_, href, ⟨?_, ?_, ?_⟩, ?_, fun h w => ⟨fun hw => ?_, ?_⟩⟩
    · simp [Mealy.run, OnDemand.machine, OnDemand.call, hset]
    · rw [hlen, hchunk]
      decide
    · rw [hlen, hidx, hchunk]
      decide
    · rw [hlen, hidx, hchunk, hlength]
      decide
    · rw [href.bGen_eq, hcur]
      rfl
    · obtain ⟨e, he, rfl, -⟩ := href.word h w hw
      rw [hlast] at he
      split_ifs at he with heq
      obtain rfl := Option.some.inj he
      exact ⟨heq, rfl⟩
    · rintro ⟨rfl, rfl⟩
      refine (href.live 7 ⟨[1], v, ⟨0, 0⟩⟩ (by rw [hlast, if_pos rfl]) ?_).1
      rw [hcur]
      exact Or.inl rfl
  · rcases hwhy with hlong | hmmap
    · rw [hlen, hchunk] at hlong
      omega
    · exact absurd rfl hmmap

/-- **When cleaning leaves exactly the live entries.**  For every size of a bucket of either type,
every sequence of calls and every choice of the system calls that fail, a `Set` that wraps in the
state that is reached succeeds; and the map then holds those of its entries that `Get` accepts, and
no others, if and only if the condition held before.  The states between the `Set` calls that
`SetMulti` and `SetMultiKeysSingleValue` make are reached as well, by shorter lists of keys. -/
theorem cleansExactly_iff_cleansWhen (T : OnDemand) (sum64 : List UInt8 → UInt64) {maxBytes : ℕ}
    {b₀ : Bucket} (hinit : Bucket.init maxBytes = .ok b₀) (calls : List Call)
    (hcalls : ∀ c ∈ calls, c.Supplied) :
    ∃ b, (T.machine sum64).run (some b₀) calls = some b ∧
      ∀ mmapErr k v h, b.Wraps k v → ∃ b', T.set mmapErr b k v h = some (b', none) ∧
        (CleansExactly (b.entered h) b' ↔ T.CleansWhen b k v h) := by
  obtain ⟨b, a, hrun, -, href⟩ := @Refines.run b₀ .empty sum64 T (refines_init hinit) calls hcalls
  exact ⟨b, hrun, fun mmapErr k v h hwraps => href.cleansExactly_iff T hwraps mmapErr h⟩

/-- Two keys with the same hash: the map is clean after the second one has been written over the
first. -/
theorem cleansExactly_of_collision :
    ∃ b₀ b b' v, Bucket.init 1 = .ok b₀ ∧ v.length = 600 ∧
      (OnDemand.trimmed.machine fun _ => 0).run (some b₀) [.set none [1] v 7] = some b ∧
      b.Wraps [2] v ∧ OnDemand.trimmed.set none b [2] v 7 = some (b', none) ∧
      CleansExactly (b.entered 7) b' := by
  obtain ⟨v, hv⟩ : ∃ v : List UInt8, v.length = 600 :=
    ⟨List.replicate 600 5, List.length_replicate⟩
  obtain ⟨b₀, b, a, hinit, hrun, -, hwraps, -, hm⟩ := run_one_chunk .trimmed hv
  obtain ⟨b₁, hrun₁, hset⟩ := cleansExactly_iff_cleansWhen .trimmed (fun _ => 0) hinit
    [.set none [1] v 7] (by simp [Call.Supplied])
  obtain rfl := Option.some.inj (hrun₁.symm.trans hrun)
  obtain ⟨b', hset', hiff⟩ := hset none [2] v 7 hwraps
  refine ⟨b₀, b₁, b', v, hinit, hv, hrun, hwraps, hset', hiff.2 (Or.inr (Or.inr ?_))⟩
  intro h' w hne hw
  exact absurd ((hm h' w).1 hw).1 hne

/-- A bucket of one chunk, and a second pair that is written over the first one: the map of
`bucketTrimmed` keeps the entry of the first. -/
theorem trimmed_keeps_dead_entry :
    ∃ b₀ b b', Bucket.init 1 = .ok b₀ ∧
      (OnDemand.trimmed.machine fun _ => 0).run (some b₀)
        [.set none [1] (List.replicate 600 5) 7] = some b ∧
      b.Wraps [2] (List.replicate 600 5) ∧
      OnDemand.trimmed.set none b [2] (List.replicate 600 5) 8 = some (b', none) ∧
      ¬ CleansExactly (b.entered 8) b' := by
  obtain ⟨v, hv, hv'⟩ : ∃ v : List UInt8, v.length = 600 ∧ List.replicate 600 5 = v :=
    ⟨List.replicate 600 5, List.length_replicate, rfl⟩
  rw [hv']
  obtain ⟨b₀, b, a, hinit, hrun, href, hwraps, hgen, hm⟩ := run_one_chunk .trimmed hv
  obtain ⟨b', hset, hiff⟩ := href.cleansExactly_iff .trimmed hwraps none 8
  refine ⟨b₀, b, b', hinit, hrun, hwraps, hset, fun hclean => ?_⟩
  have hgen₀ : wordGen (slotWord ⟨0, 0⟩) = 1 := by decide
  have hidx₀ : wordIdx (slotWord ⟨0, 0⟩) = 0 := by decide
  rcases hiff.1 hclean with hmax | ⟨h', w, -, hw, hold⟩ | hbehind
  · rw [hgen] at hmax
    exact absurd hmax (by decide)
  · obtain ⟨-, rfl⟩ := (hm h' w).1 hw
    exact hold (hgen₀.trans hgen.symm)
  · have hle := hbehind 7 _ (by decide) ((hm 7 _).2 ⟨rfl, rfl⟩)
    rw [hidx₀, entryLen, Bucket.length_encode] at hle
    omega

end Cache

end MerkleService
