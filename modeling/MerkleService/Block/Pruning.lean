import MerkleService.Store.Blob
import MerkleService.Block.SubtreeProcessor

/-!
# Pruning the blobs of announced subtrees

In the storage mode `realtime` a subtree is stored when it is announced, without a block height, and
so without a delete-at-height.  The comment on `StoreSubtree` (`internal/store/subtree_store.go`)
leaves it to block processing to store it again with a height.  But `ProcessBlockSubtree`
(`internal/block/subtree_processor.go`) stores a subtree only when it does not find it.

Here the operations of the two stores and the calls of `ProcessBlockSubtree` are interleaved over
one blob store.  `History` remembers which subtrees were announced, and by which height each of
those that were then processed should be gone.

* `Scheduled` : the blob of a subtree is to be deleted at some height.
* `Permits` : the condition on the steps; `Pruning` : the invariant.
* `pruned_of_run` : **in the runs of permitted steps the blob is gone when it should be**.
* `announced_not_pruned` : a subtree that is announced and then processed stays.
-/

namespace MerkleService

namespace Block

open Store

/-- A call of `ProcessBlockSubtree`, and what it meets. -/
structure ProcessCall where
  subtreeHash : String
  blockHeight : UInt64
  dataHubURL : String
  postMineTTLSec : ℤ
  /-- What it calls, the subtree store apart. -/
  env : Env
  /-- An error of `GetSubtree` other than that the blob is not there. -/
  readErr : Option String
  /-- How the write of `StoreSubtree` ends, if it is called. -/
  w : Write

inductive Event where
  /-- An operation of one of the stores: of the subtree processor, which stores announced subtrees
  with height 0, of the callback service, or of whoever sets the block height. -/
  | store (op : Op)
  | process (call : ProcessCall)

/-- The subtrees that were stored when they were announced, and those that were then processed, with
the height from which on they should be gone. -/
structure History where
  announced : List String := []
  due : List (String × ℕ) := []

section

variable {κ : Type} [DecidableEq κ] (st : Stores κ)

/-- What `ProcessBlockSubtree` calls, over the blobs. -/
def ProcessCall.envOver (call : ProcessCall) (b : Blobs κ) : Env :=
  { call.env with
    getSubtree := fun id =>
      match call.readErr with
      | some err => .error s!"failed to get subtree {id}: {err}"
      | none =>
        match st.getSubtree b id with
        | some data => .ok (some data)
        | none => .error s!"failed to get subtree {id}: blob not found: {id}" }

/-- The call returns without error. -/
def ProcessCall.succeeds (call : ProcessCall) (b : Blobs κ) : Bool :=
  (processBlockSubtree (call.envOver st b) call.subtreeHash call.blockHeight.toNat call.dataHubURL
    call.postMineTTLSec).isOk

/-- The blobs after the call: what is retrieved from the DataHub is stored. -/
def ProcessCall.blobs (call : ProcessCall) (b : Blobs κ) : Blobs κ :=
  match retrieve (call.envOver st b) call.subtreeHash call.dataHubURL call.blockHeight.toNat with
  | .error _ => b
  | .ok (_, stored) => stored.foldl (fun b effect => match effect with
    | .storeSubtree id data blockHeight =>
      st.storeSubtree b id data (UInt64.ofNat blockHeight) call.w
    | .batchUpdateTTL _ _ => b) b

def Event.step (b : Blobs κ) : Event → Option (Blobs κ)
  | .store op => some (st.apply b op)
  | .process call => some (call.blobs st b)

/-- The height from which on the subtree of a call should be gone. -/
def ProcessCall.due (call : ProcessCall) : ℕ := call.blockHeight.toNat + st.dahOffset.toNat

/-- The subtree was announced and is now processed at a height; the sum does not overflow, as no
height would reach it. -/
def ProcessCall.obliges (call : ProcessCall) (b : Blobs κ) (history : History) : Prop :=
  call.succeeds st b = true ∧ 0 < call.blockHeight ∧ call.subtreeHash ∈ history.announced ∧
    call.due st < 2 ^ 64

instance (call : ProcessCall) (b : Blobs κ) (history : History) :
    Decidable (call.obliges st b history) :=
  inferInstanceAs (Decidable (_ ∧ _))

def Event.remember (b : Blobs κ) (event : Event) (history : History) : History :=
  match event with
  | .store (.storeSubtree id _ 0 .done) => { history with announced := id :: history.announced }
  | .store _ => history
  | .process call =>
    if call.obliges st b history then
      { history with due := (call.subtreeHash, call.due st) :: history.due }
    else history

def pruningMachine : LTS (Blobs κ × History) Event :=
  (LTS.mk (Event.step st)).withHistory (Event.remember st)

/-! ### The condition -/

/-- A key that names the blob of the subtree has a delete-at-height that is not later than `d`. -/
def Scheduled (b : Blobs κ) (id : String) (d : ℕ) : Prop :=
  ∃ e ∈ b.dah, st.path e.1 = st.path id ∧ e.2.toNat ≤ d

/-- The write, under a key that names the blob of the subtree, leaves it scheduled. -/
def KeepsSchedule (b : Blobs κ) (key : String) (height : UInt64) (w : Write) (id : String) (d : ℕ) :
    Prop :=
  w = .refused ∨ (w = .done ∧ 0 < height ∧ height.toNat ≤ d) ∨
    ∃ e ∈ b.dah, st.path e.1 = st.path id ∧ e.2.toNat ≤ d ∧ (w ≠ .done ∨ height = 0 ∨ e.1 ≠ key)

/-- The write leaves the blobs scheduled that should be gone at some height. -/
def PermitsWrite (b : Blobs κ) (history : History) (key : String) (height : UInt64) (w : Write) :
    Prop :=
  ∀ id d, (id, d) ∈ history.due → st.path key = st.path id → KeepsSchedule st b key height w id d

/-- `ProcessBlockSubtree` does not find the blob, or cannot read it, and stores it; or it finds no
blob and leaves none; or the blob is already scheduled. -/
def ProcessCall.Schedules (call : ProcessCall) (b : Blobs κ) : Prop :=
  Scheduled st b call.subtreeHash (call.due st) ∨
    ((call.readErr.isSome ∨ st.getSubtree b call.subtreeHash = none) ∧ call.w = .done) ∨
    (st.getSubtree b call.subtreeHash = none ∧ call.w = .refused)

/-- The steps after which a subtree that was announced and processed is still scheduled: files can
be removed, writes keep the schedule, and processing makes one. -/
def Permits (s : Blobs κ × History) : Event → Prop
  | .store (.storeSubtree id _ blockHeight w) =>
    PermitsWrite st s.1 s.2 id (if 0 < blockHeight then blockHeight + st.dahOffset else 0) w
  | .store (.storeSubtreeFromReader id _ blockHeight w) =>
    PermitsWrite st s.1 s.2 id (blockHeight + st.dahOffset) w
  | .store (.put data blockHeight w) =>
    PermitsWrite st s.1 s.2 (stumpKeyPrefix ++ st.stumpRefFor data)
      (if 0 < blockHeight ∧ 0 < st.stumpDAHOffset then blockHeight + st.stumpDAHOffset else 0) w
  | .store (.deleteSubtree _ removed) | .store (.deleteStump _ removed) => removed = true
  | .store (.setCurrentBlockHeight _ removed) => ∀ key, removed key = true
  | .process call =>
    (call.readErr.isSome ∨ st.getSubtree s.1 call.subtreeHash = none →
      PermitsWrite st s.1 s.2 call.subtreeHash
        (if 0 < call.blockHeight then call.blockHeight + st.dahOffset else 0) call.w) ∧
    (call.obliges st s.1 s.2 → call.Schedules st s.1)

/-- **The invariant**: a blob that should be gone at some height is scheduled. -/
def Pruning (s : Blobs κ × History) : Prop :=
  ∀ id d, (id, d) ∈ s.2.due → (s.1.blob (st.path id)).isSome = true → Scheduled st s.1 id d

end

/-! ### One operation -/

section

variable {κ : Type} [DecidableEq κ] {st : Stores κ} {b : Blobs κ} {id : String} {d : ℕ}

theorem mem_dah_set {key : String} {data : List UInt8} {height : UInt64} {w : Write}
    {e : String × UInt64} (he : e ∈ b.dah) (hkey : w ≠ .done ∨ height = 0 ∨ e.1 ≠ key) :
    e ∈ (b.set st.path key data height w).dah := by
  simp only [Blobs.set]
  split_ifs with hset
  · have hne : e.1 ≠ key := by
      rcases hkey with hw | hzero | hne
      · exact absurd hset.1 hw
      · exact absurd (hzero ▸ hset.2) (by decide)
      · exact hne
    exact List.mem_cons_of_mem _ (List.mem_filter.2 ⟨he, by simpa using hne⟩)
  · exact he

theorem scheduled_set (hold : (b.blob (st.path id)).isSome = true → Scheduled st b id d)
    {key : String} {data : List UInt8} {height : UInt64} {w : Write}
    (hkeeps : st.path key = st.path id → KeepsSchedule st b key height w id d)
    (hblob : ((b.set st.path key data height w).blob (st.path id)).isSome = true) :
    Scheduled st (b.set st.path key data height w) id d := by
  by_cases hpath : st.path key = st.path id
  · rcases hkeeps hpath with rfl | ⟨rfl, hpos, hle⟩ | ⟨e, he, hsame, hle, hkey⟩
    · exact hold hblob
    · refine ⟨(key, height), ?_, hpath, hle⟩
      simp only [Blobs.set, hpos, and_self, ↓reduceIte]
      exact List.mem_cons_self
    · exact ⟨e, mem_dah_set he hkey, hsame, hle⟩
  · rw [Blobs.blob_set_of_ne (Ne.symm hpath)] at hblob
    obtain ⟨e, he, hsame, hle⟩ := hold hblob
    have hne : e.1 ≠ key := fun h => hpath (h ▸ hsame)
    exact ⟨e, mem_dah_set he (.inr (.inr hne)), hsame, hle⟩

theorem scheduled_del (hold : (b.blob (st.path id)).isSome = true → Scheduled st b id d)
    {key : String} (hblob : ((b.del st.path key true).blob (st.path id)).isSome = true) :
    Scheduled st (b.del st.path key true) id d := by
  have hpath : st.path id ≠ st.path key := by
    intro h
    rw [h] at hblob
    simp [Blobs.del] at hblob
  obtain ⟨content, hcontent⟩ := Option.isSome_iff_exists.1 hblob
  obtain ⟨e, he, hsame, hle⟩ := hold (by rw [Blobs.blob_del hcontent, Option.isSome_some])
  have hne : e.1 ≠ key := fun h => hpath (h ▸ hsame.symm)
  exact ⟨e, List.mem_filter.2 ⟨he, by simpa using hne⟩, hsame, hle⟩

theorem blob_setCurrentBlockHeight_of_scheduled {height : UInt64} {removed : String → Bool}
    (hremoved : ∀ key, removed key = true) {e : String × UInt64} (he : e ∈ b.dah)
    (hpath : st.path e.1 = st.path id) (hle : e.2 ≤ height) :
    (b.setCurrentBlockHeight st.path height removed).blob (st.path id) = none := by
  have hany : (b.dah.any fun e => e.2 ≤ height && removed e.1 && st.path e.1 = st.path id) =
      true := by
    rw [List.any_eq_true]
    exact ⟨e, he, by simp [hle, hremoved, hpath]⟩
  simp only [Blobs.setCurrentBlockHeight, hany, ↓reduceIte]

theorem scheduled_setCurrentBlockHeight
    (hold : (b.blob (st.path id)).isSome = true → Scheduled st b id d) {height : UInt64}
    {removed : String → Bool} (hremoved : ∀ key, removed key = true)
    (hblob : ((b.setCurrentBlockHeight st.path height removed).blob (st.path id)).isSome = true) :
    Scheduled st (b.setCurrentBlockHeight st.path height removed) id d := by
  obtain ⟨content, hcontent⟩ := Option.isSome_iff_exists.1 hblob
  obtain ⟨e, he, hpath, hle⟩ :=
    hold (by rw [Blobs.blob_setCurrentBlockHeight hcontent, Option.isSome_some])
  have hlater : ¬ e.2 ≤ height := by
    intro hreached
    rw [blob_setCurrentBlockHeight_of_scheduled hremoved he hpath hreached] at hblob
    cases hblob
  exact ⟨e, List.mem_filter.2 ⟨he, by simpa using hlater⟩, hpath, hle⟩

end

/-! ### `ProcessBlockSubtree` -/

section

variable {κ : Type} [DecidableEq κ] {st : Stores κ} {b : Blobs κ} {call : ProcessCall}

/-- When the blob is not read, what is fetched is stored, or the call fails. -/
theorem ProcessCall.blobs_of_error {err : String}
    (hget : (call.envOver st b).getSubtree call.subtreeHash = .error err) :
    call.blobs st b = b ∧ call.succeeds st b = false ∨
      ∃ data, call.blobs st b =
        st.storeSubtree b call.subtreeHash data call.blockHeight call.w := by
  cases hfetch : (call.envOver st b).fetchSubtreeRaw call.dataHubURL call.subtreeHash with
  | error err =>
    refine .inl ⟨?_, ?_⟩
    · simp only [ProcessCall.blobs, retrieve, hget, hfetch]
    · simp [ProcessCall.succeeds, processBlockSubtree, retrieve, hget, hfetch, bind,
        Except.bind, Except.isOk, Except.toBool]
  | ok data =>
    refine .inr ⟨data, ?_⟩
    simp only [ProcessCall.blobs, retrieve, hget, hfetch, List.foldl_cons, List.foldl_nil,
      UInt64.ofNat_toNat]

/-- **What a call does to the blobs**: nothing when the blob is found; otherwise it is stored, or
the call fails. -/
theorem ProcessCall.blobs_cases (st : Stores κ) (b : Blobs κ) (call : ProcessCall) :
    (call.readErr = none ∧ st.getSubtree b call.subtreeHash ≠ none ∧ call.blobs st b = b) ∨
    ((call.readErr.isSome = true ∨ st.getSubtree b call.subtreeHash = none) ∧
      (call.blobs st b = b ∧ call.succeeds st b = false ∨
        ∃ data, call.blobs st b =
          st.storeSubtree b call.subtreeHash data call.blockHeight call.w)) := by
  cases hread : call.readErr with
  | some err =>
    have hget : (call.envOver st b).getSubtree call.subtreeHash =
        .error s!"failed to get subtree {call.subtreeHash}: {err}" := by
      simp only [ProcessCall.envOver, hread]
    exact .inr ⟨.inl rfl, ProcessCall.blobs_of_error hget⟩
  | none =>
    cases hblob : st.getSubtree b call.subtreeHash with
    | some data =>
      refine .inl ⟨rfl, by simp, ?_⟩
      simp [ProcessCall.blobs, retrieve, ProcessCall.envOver, hread, hblob]
    | none =>
      have hget : (call.envOver st b).getSubtree call.subtreeHash = .error
          s!"failed to get subtree {call.subtreeHash}: blob not found: {call.subtreeHash}" := by
        simp only [ProcessCall.envOver, hread, hblob]
      exact .inr ⟨.inr rfl, ProcessCall.blobs_of_error hget⟩

omit [DecidableEq κ] in
theorem toNat_dah (h : call.due st < 2 ^ 64) :
    (call.blockHeight + st.dahOffset).toNat = call.due st := by
  rw [UInt64.toNat_add]
  exact Nat.mod_eq_of_lt h

/-- A call that makes the height of a subtree known leaves it scheduled, or not stored. -/
theorem scheduled_of_obliges {history : History} (hobliges : call.obliges st b history)
    (hsched : call.Schedules st b)
    (hblob : ((call.blobs st b).blob (st.path call.subtreeHash)).isSome = true) :
    Scheduled st (call.blobs st b) call.subtreeHash (call.due st) := by
  obtain ⟨hok, hpos, -, hlt⟩ := hobliges
  rcases call.blobs_cases st b with ⟨hread, hfound, heq⟩ | ⟨-, ⟨-, hfail⟩ | ⟨data, heq⟩⟩
  · rw [heq]
    rcases hsched with hsched | ⟨hread' | hnone, -⟩ | ⟨hnone, -⟩
    · exact hsched
    · rw [hread] at hread'
      cases hread'
    · exact absurd hnone hfound
    · exact absurd hnone hfound
  · rw [hok] at hfail
    cases hfail
  · rw [Stores.storeSubtree, if_pos hpos] at heq
    rw [heq] at hblob ⊢
    by_cases hw : call.w = .done
    · -- The write schedules the blob for the height that is due.
      refine ⟨(call.subtreeHash, call.blockHeight + st.dahOffset), ?_, rfl, (toNat_dah hlt).le⟩
      have hdah : 0 < call.blockHeight + st.dahOffset := by
        have := UInt64.lt_iff_toNat_lt.1 hpos
        rw [UInt64.lt_iff_toNat_lt, toNat_dah hlt, ProcessCall.due]
        exact Nat.lt_of_lt_of_le this (Nat.le_add_right _ _)
      simp only [Blobs.set, hw, hdah, and_self, ↓reduceIte]
      exact List.mem_cons_self
    · rcases hsched with ⟨e, he, hpath, hle⟩ | ⟨-, hdone⟩ | ⟨hnone, hrefused⟩
      · exact ⟨e, mem_dah_set he (.inl hw), hpath, hle⟩
      · exact absurd hdone hw
      · rw [Blobs.blob_set_of_refused (by rw [hrefused]; rfl)] at hblob
        rw [Stores.getSubtree, Blobs.get] at hnone
        rw [hnone] at hblob
        cases hblob

/-! ### Runs -/

variable {s s' : Blobs κ × History} {event : Event}

theorem pruningMachine_step (h : (pruningMachine st).step s event = some s') :
    event.step st s.1 = some s'.1 ∧ s'.2 = event.remember st s.1 s.2 := by
  obtain ⟨b', hb', rfl⟩ := Option.map_eq_some_iff.1 h
  exact ⟨hb', rfl⟩

omit [DecidableEq κ] in
theorem due_remember_store (op : Op) (b : Blobs κ) (history : History) :
    (Event.remember st b (.store op) history).due = history.due := by
  unfold Event.remember
  split
  · rfl
  · rfl
  · rename_i h
    cases h

theorem scheduled_apply {id : String} {d : ℕ} (hdue : (id, d) ∈ s.2.due)
    (hold : (s.1.blob (st.path id)).isSome = true → Scheduled st s.1 id d) {op : Op}
    (hok : Permits st s (.store op))
    (hblob : ((st.apply s.1 op).blob (st.path id)).isSome = true) :
    Scheduled st (st.apply s.1 op) id d := by
  cases op with
  | storeSubtree _ data blockHeight w => exact scheduled_set hold (hok id d hdue) hblob
  | storeSubtreeFromReader _ data blockHeight w => exact scheduled_set hold (hok id d hdue) hblob
  | put data blockHeight w => exact scheduled_set hold (hok id d hdue) hblob
  | deleteSubtree key removed =>
    obtain rfl : removed = true := hok
    exact scheduled_del hold hblob
  | deleteStump ref removed =>
    obtain rfl : removed = true := hok
    simp only [Stores.apply, Stores.deleteStump] at hblob ⊢
    split_ifs at hblob ⊢
    · -- `Delete` of the empty reference does nothing.
      exact hold hblob
    · exact scheduled_del hold hblob
  | setCurrentBlockHeight height removed =>
    exact scheduled_setCurrentBlockHeight hold hok hblob

theorem scheduled_blobs {id : String} {d : ℕ} (hdue : (id, d) ∈ s.2.due)
    (hold : (s.1.blob (st.path id)).isSome = true → Scheduled st s.1 id d)
    (hok : Permits st s (.process call))
    (hblob : ((call.blobs st s.1).blob (st.path id)).isSome = true) :
    Scheduled st (call.blobs st s.1) id d := by
  rcases call.blobs_cases st s.1 with ⟨-, -, heq⟩ | ⟨hmiss, ⟨heq, -⟩ | ⟨data, heq⟩⟩
  · rw [heq] at hblob ⊢
    exact hold hblob
  · rw [heq] at hblob ⊢
    exact hold hblob
  · rw [heq] at hblob ⊢
    exact scheduled_set hold (hok.1 hmiss id d hdue) hblob

/-- **One step.** -/
theorem pruning_step (hinv : Pruning st s) (hok : Permits st s event)
    (hst : (pruningMachine st).step s event = some s') : Pruning st s' := by
  obtain ⟨hb, hhistory⟩ := pruningMachine_step hst
  intro id d hdue hblob
  cases event with
  | store op =>
    rw [hhistory, due_remember_store] at hdue
    obtain hb : st.apply s.1 op = s'.1 := Option.some.inj hb
    rw [← hb] at hblob ⊢
    exact scheduled_apply hdue (hinv id d hdue) hok hblob
  | process call =>
    obtain hb : call.blobs st s.1 = s'.1 := Option.some.inj hb
    rw [hhistory, Event.remember] at hdue
    rw [← hb] at hblob ⊢
    -- The height of a subtree is new, or was known before the call.
    split_ifs at hdue with hobliges
    · rcases List.mem_cons.1 hdue with hnew | hdue
      · obtain ⟨rfl, rfl⟩ := Prod.mk.inj hnew
        exact scheduled_of_obliges hobliges (hok.2 hobliges) hblob
      · exact scheduled_blobs hdue (hinv id d hdue) hok hblob
    · exact scheduled_blobs hdue (hinv id d hdue) hok hblob

/-- **In the runs of permitted steps an announced subtree is pruned.**  Whatever the blob store
holds at the beginning, a subtree that was stored when it was announced and then processed at height
`h` is not in the store after the block height is set to `h` plus the offset, or more. -/
theorem pruned_of_run (st : Stores κ) (b₀ b : Blobs κ) (history : History)
    (hrun : (pruningMachine st).Run (Permits st) (b₀, {}) (b, history)) (height : UInt64)
    (removed : String → Bool)
    (hok : Permits st (b, history) (.store (.setCurrentBlockHeight height removed))) :
    ∀ id d, (id, d) ∈ history.due → d ≤ height.toNat →
      st.getSubtree (st.apply b (.setCurrentBlockHeight height removed)) id = none := by
  have hinv : Pruning st (b, history) :=
    hrun.invariant (fun _ _ hdue => absurd hdue List.not_mem_nil)
      fun _ _ _ => pruning_step
  intro id d hdue hle
  by_contra hsome
  rw [← ne_eq, ← Option.isSome_iff_ne_none] at hsome
  obtain ⟨content, hcontent⟩ := Option.isSome_iff_exists.1 hsome
  have hbefore : b.blob (st.path id) = some content := Blobs.blob_setCurrentBlockHeight hcontent
  obtain ⟨e, he, hpath, hdah⟩ := hinv id d hdue (by rw [hbefore, Option.isSome_some])
  have hreached : e.2 ≤ height := UInt64.le_iff_toNat_le.2 (hdah.trans hle)
  have hgone := blob_setCurrentBlockHeight_of_scheduled hok he hpath hreached
  rw [Stores.getSubtree, Blobs.get, Stores.apply, hgone] at hsome
  cases hsome

end

/-! ### A subtree that is announced and processed -/

/-- Stores in memory; nothing is hashed below. -/
def realtimeStores : Stores String := .memory 10 10 fun _ => []

/-- A subtree of one record, in which nothing is registered, is processed at height 5. -/
def blockCall : ProcessCall where
  subtreeHash := "ab"
  blockHeight := 5
  dataHubURL := "http://hub"
  postMineTTLSec := 0
  env :=
    { getSubtree := fun _ => .error "not used"
      fetchSubtreeRaw := fun _ _ => .ok (List.replicate 32 1)
      batchGet := fun _ => .ok []
      buildMerkleTreeStoreFromBytes := fun nodes => .ok (Stump.merkleTreeStore pairHash nodes)
      order := .insertion }
  readErr := none
  w := .done

/-- The announced blob was deleted when its block is processed, and is stored with a height. -/
theorem pruned_after_fetch :
    ∃ (b : Blobs String) (history : History), (pruningMachine realtimeStores).exec (.empty, {})
        [.store (.storeSubtree "ab" (List.replicate 32 1) 0 .done),
          .store (.deleteSubtree "ab" true), .process blockCall] = some (b, history) ∧
      ("ab", 15) ∈ history.due ∧
      realtimeStores.getSubtree b "ab" = some (List.replicate 32 1) ∧
      realtimeStores.getSubtree (realtimeStores.apply b (.setCurrentBlockHeight 15 fun _ => true))
        "ab" = none := by
  have hnone : ∀ {b : Blobs String} {announced : List String} {key : String} {height : UInt64},
      PermitsWrite realtimeStores b ⟨announced, []⟩ key height .done :=
    fun _ _ h => absurd h List.not_mem_nil
  have hrun := LTS.Run.next (LTS.Run.next (LTS.Run.next
    (@LTS.Run.start _ _ (pruningMachine realtimeStores) (Permits realtimeStores) (.empty, {}))
    (show Permits _ _ (.store (.storeSubtree "ab" (List.replicate 32 1) 0 .done)) from hnone) rfl)
    (show Permits _ _ (.store (.deleteSubtree "ab" true)) from rfl) rfl)
    (show Permits _ _ (.process blockCall) from
      ⟨fun _ => hnone, fun _ => .inr (.inl ⟨.inr (by decide), rfl⟩)⟩) rfl
  have hpruned := pruned_of_run realtimeStores _ _ _ hrun 15 (fun _ => true) (fun _ => rfl) "ab" 15
    (by decide) (by decide)
  exact ⟨_, _, rfl, by decide, by decide, hpruned⟩

/-- The announced blob is found when its block is processed, and stays. -/
theorem announced_not_pruned :
    ∃ (b : Blobs String) (history : History), (pruningMachine realtimeStores).exec (.empty, {})
        [.store (.storeSubtree "ab" (List.replicate 32 1) 0 .done), .process blockCall] =
        some (b, history) ∧
      ("ab", 15) ∈ history.due ∧
      realtimeStores.getSubtree (realtimeStores.apply b (.setCurrentBlockHeight 100 fun _ => true))
        "ab" = some (List.replicate 32 1) :=
  ⟨_, _, rfl, by decide, by decide⟩

end Block

end MerkleService
