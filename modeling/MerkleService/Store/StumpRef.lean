import MerkleService.Store.Blob

/-!
# STUMP references as content addresses

`StumpStore.Put` (`internal/store/stump_store.go`) keeps a STUMP under `stump/` and the hexadecimal
SHA-256 of its bytes, and a callback carries that hash.  The blob store is shared with the subtrees,
whose keys are texts that a peer has sent: one of them can name the blob of a STUMP.

* `Op.Keeps` : what an operation writes belongs to every reference that names the same blob.
* `addressed_iff` : **all references stay content addresses through a sequence of operations if and
  only if all of them keep them**.
* `keeps_put_memory`, `keeps_put_file` : what `Put` writes does.
* `stump_overwritten` : a subtree that is announced under the key of a STUMP.
-/

namespace MerkleService

namespace Store

variable {κ : Type} [DecidableEq κ] (st : Stores κ)

/-- Whatever the store returns for one of the references has the hash that the reference names. -/
def Addressed (refs : Set String) (b : Blobs κ) : Prop :=
  ∀ ref ∈ refs, ∀ data, st.getStump b ref = some data → st.stumpRefFor data = ref

/-- What is written under a key belongs to every reference that names the same blob. -/
def KeepsWrite (refs : Set String) (key : String) (data : List UInt8) (w : Write) : Prop :=
  ∀ content, w.content data = some content → ∀ ref ∈ refs, ref ≠ "" →
    st.path (stumpKeyPrefix ++ ref) = st.path key → st.stumpRefFor content = ref

/-- The condition on the operations, which is one on what they write. -/
def Op.Keeps (refs : Set String) : Op → Prop
  | .storeSubtree id data _ w | .storeSubtreeFromReader id data _ w => KeepsWrite st refs id data w
  | .put data _ w => KeepsWrite st refs (stumpKeyPrefix ++ st.stumpRefFor data) data w
  | .deleteSubtree _ _ | .deleteStump _ _ | .setCurrentBlockHeight _ _ => True

variable {st} {refs : Set String} {b : Blobs κ}

/-- A write keeps the references content addresses exactly if what it writes belongs to them. -/
theorem addressed_set_iff (hb : Addressed st refs b) (key : String) (data : List UInt8)
    (height : UInt64) (w : Write) :
    Addressed st refs (b.set st.path key data height w) ↔ KeepsWrite st refs key data w := by
  constructor
  · intro h content hcontent ref hmem hne hpath
    refine h ref hmem content ?_
    rw [Stores.getStump, if_neg hne, Blobs.get, hpath]
    exact Blobs.blob_set_of_content hcontent
  · intro hkeeps ref hmem content hget
    rw [Stores.getStump] at hget
    split_ifs at hget with hne
    rw [Blobs.get] at hget
    by_cases hpath : st.path (stumpKeyPrefix ++ ref) = st.path key
    · cases hw : w.content data with
      | some written =>
        -- What the reference names now is what was written.
        rw [hpath, Blobs.blob_set_of_content hw, Option.some.injEq] at hget
        rw [← hget]
        exact hkeeps written hw ref hmem hne hpath
      | none =>
        -- The write was refused before it touched the blob.
        rw [Blobs.blob_set_of_refused hw] at hget
        exact hb ref hmem content (by rw [Stores.getStump, if_neg hne, Blobs.get, hget])
    · rw [Blobs.blob_set_of_ne hpath] at hget
      exact hb ref hmem content (by rw [Stores.getStump, if_neg hne, Blobs.get, hget])

omit [DecidableEq κ] in
/-- Operations that only remove blobs keep the references content addresses. -/
theorem addressed_of_subset (hb : Addressed st refs b) {b' : Blobs κ}
    (hsub : ∀ k content, b'.blob k = some content → b.blob k = some content) :
    Addressed st refs b' := by
  intro ref hmem content hget
  refine hb ref hmem content ?_
  rw [Stores.getStump] at hget ⊢
  split_ifs at hget ⊢
  exact hsub _ _ hget

/-- **One operation.** -/
theorem addressed_apply_iff (hb : Addressed st refs b) (op : Op) :
    Addressed st refs (st.apply b op) ↔ op.Keeps st refs := by
  cases op with
  | storeSubtree id data blockHeight w => exact addressed_set_iff hb _ _ _ _
  | storeSubtreeFromReader id data blockHeight w => exact addressed_set_iff hb _ _ _ _
  | put data blockHeight w => exact addressed_set_iff hb _ _ _ _
  | deleteSubtree id removed =>
    exact iff_of_true (addressed_of_subset hb fun _ _ => Blobs.blob_del) trivial
  | deleteStump ref removed =>
    refine iff_of_true (addressed_of_subset hb fun k content h => ?_) trivial
    simp only [Stores.apply, Stores.deleteStump] at h
    split_ifs at h
    · exact h
    · exact Blobs.blob_del h
  | setCurrentBlockHeight height removed =>
    exact iff_of_true (addressed_of_subset hb fun _ _ => Blobs.blob_setCurrentBlockHeight) trivial

/-- **References stay content addresses if and only if every operation keeps them.**  The set of
the references that are asked for is arbitrary, as are the ids of the subtrees. -/
theorem addressed_iff (st : Stores κ) (refs : Set String) (b : Blobs κ) (hb : Addressed st refs b)
    (ops : List Op) :
    st.machine.Always (Addressed st refs) b ops ↔ ∀ op ∈ ops, op.Keeps st refs := by
  have htotal : ∀ b op, (st.machine.step b op).isSome = true := fun _ _ => rfl
  refine (@LTS.always_iff_along _ _ st.machine (Addressed st refs) (Addressed st refs)
    (fun _ op => op.Keeps st refs) ?_ ?_ b hb hb ops (LTS.isSome_exec htotal b ops)).trans
    (LTS.along_iff_forall_mem htotal b ops)
  · intro b op b' hb hst
    obtain rfl := Option.some.inj hst
    exact (addressed_apply_iff hb op).symm
  · intro b op b' hb hok hst
    obtain rfl := Option.some.inj hst
    exact (addressed_apply_iff hb op).2 hok

/-! ### `Put` keeps the references -/

omit [DecidableEq κ] in
/-- What `Put` writes belongs to its own reference; so it is enough that no other reference names
the same blob. -/
theorem keeps_put (data : List UInt8) (blockHeight : UInt64)
    (hpath : ∀ ref ∈ refs, st.path (stumpKeyPrefix ++ ref) =
      st.path (stumpKeyPrefix ++ st.stumpRefFor data) → ref = st.stumpRefFor data) :
    (Op.put data blockHeight .done).Keeps st refs := by
  intro content hcontent ref hmem _ heq
  obtain rfl := Option.some.inj hcontent
  exact (hpath ref hmem heq).symm

/-- In memory `Put` keeps all references. -/
theorem keeps_put_memory {dahOffset stumpDAHOffset : UInt64} {sha256 : List UInt8 → List UInt8}
    (refs : Set String) (data : List UInt8) (blockHeight : UInt64) :
    (Op.put data blockHeight .done).Keeps (.memory dahOffset stumpDAHOffset sha256) refs := by
  refine keeps_put data blockHeight fun ref _ heq => ?_
  exact String.append_right_inj _ |>.1 heq

theorem components_stumpKey {ref : String} (href : '/' ∉ ref.toList) :
    FilePath.components (stumpKeyPrefix ++ ref) = ["stump".toList, ref.toList] := by
  have hsplit : (stumpKeyPrefix ++ ref).toList = "stump".toList ++ '/' :: ref.toList := by
    rw [String.toList_append]
    rfl
  rw [FilePath.components, hsplit, List.splitOn_append_cons_self_of_not_mem (by decide),
    List.splitOn_eq_singleton href]

theorem names_join_stump (dir : FilePath.AbsPath) {ref : String} (hdot : ref.toList ≠ ['.'])
    (hup : ref.toList ≠ ['.', '.']) (hslash : '/' ∉ ref.toList) :
    (dir.join (stumpKeyPrefix ++ ref)).names =
      dir.names ++ "stump".toList :: [ref.toList].filter fun c => c ≠ [] := by
  change (FilePath.components (stumpKeyPrefix ++ ref)).foldl FilePath.push dir.names = _
  rw [components_stumpKey hslash]
  by_cases hempty : ref.toList = []
  · simp [FilePath.push, hempty]
  · simp [FilePath.push, hempty, hdot, hup]

theorem eq_of_filter_singleton {s t : String}
    (h : ([s.toList].filter fun c => c ≠ []) = [t.toList].filter fun c => c ≠ []) : s = t := by
  rw [← String.toList_inj]
  by_cases hs : s.toList = []
  · by_cases ht : t.toList = []
    · rw [hs, ht]
    · simp [hs, ht] at h
  · by_cases ht : t.toList = []
    · simp [hs, ht] at h
    · simpa [hs, ht] using h

theorem isName_encode {bs : List UInt8} (h : bs ≠ []) :
    FilePath.IsName (Hex.encode bs).toList := by
  have hdigits := Hex.isDigits_encode bs
  have hdot : '.' ∉ (Hex.encode bs).toList := hdigits.notMem (by decide)
  refine ⟨?_, fun h => hdot (by rw [h]; decide), fun h => hdot (by rw [h]; decide),
    hdigits.notMem (by decide)⟩
  rw [← List.length_pos_iff, Hex.encode, String.toList_ofList, Hex.length_encodeChars]
  have := List.length_pos_iff.2 h
  omega

/-- On disk `Put` keeps all references that are single names, as those that `Put` returns. -/
theorem keeps_put_file {dir : FilePath.AbsPath} {dahOffset stumpDAHOffset : UInt64}
    {sha256 : List UInt8 → List UInt8} {refs : Set String}
    (hrefs : ∀ ref ∈ refs, FilePath.IsName ref.toList) (data : List UInt8)
    (hdata : sha256 data ≠ []) (blockHeight : UInt64) :
    (Op.put data blockHeight .done).Keeps (.file dir dahOffset stumpDAHOffset sha256) refs := by
  refine keeps_put data blockHeight fun ref hmem heq => ?_
  have hnames : (dir.join (stumpKeyPrefix ++ ref)).names =
      (dir.join (stumpKeyPrefix ++ Hex.encode (sha256 data))).names :=
    congrArg FilePath.AbsPath.names heq
  obtain ⟨-, hdot, hup, hslash⟩ := hrefs ref hmem
  obtain ⟨-, hdot', hup', hslash'⟩ := isName_encode hdata
  rw [names_join_stump dir hdot hup hslash, names_join_stump dir hdot' hup' hslash',
    List.append_right_inj, List.cons_inj_right] at hnames
  exact eq_of_filter_singleton hnames

/-! ### A subtree under the key of a STUMP -/

/-- Stores in memory, with SHA-256 on the bytes that are stored below. -/
def sampleStores : Stores String :=
  .memory 10 10 fun data =>
    if data = [1] then
      [0x4b, 0xf5, 0x12, 0x2f, 0x34, 0x45, 0x54, 0xc5,
       0x3b, 0xde, 0x2e, 0xbb, 0x8c, 0xd2, 0xb7, 0xe3,
       0xd1, 0x60, 0x0a, 0xd6, 0x31, 0xc3, 0x85, 0xa5,
       0xd7, 0xcc, 0xe2, 0x3c, 0x77, 0x85, 0x45, 0x9a]
    else if data = [2] then
      [0xdb, 0xc1, 0xb4, 0xc9, 0x00, 0xff, 0xe4, 0x8d,
       0x57, 0x5b, 0x5d, 0xa5, 0xc6, 0x38, 0x04, 0x01,
       0x25, 0xf6, 0x5d, 0xb0, 0xfe, 0x3e, 0x24, 0x49,
       0x4b, 0x76, 0xea, 0x98, 0x64, 0x57, 0xd9, 0x86]
    else List.replicate 32 0

/-- A STUMP, and a subtree under a key of its own. -/
theorem addressed_two_blobs :
    sampleStores.machine.Always (Addressed sampleStores Set.univ) .empty
      [.put [1] 5 .done, .storeSubtree "ab" [2] 0 .done] := by
  refine (addressed_iff sampleStores Set.univ .empty ?_ _).2 ?_
  · intro ref _ data hget
    rw [Stores.getStump] at hget
    split_ifs at hget
    cases hget
  · simp only [List.mem_cons, List.not_mem_nil, or_false, forall_eq_or_imp, forall_eq]
    refine ⟨keeps_put_memory _ _ _, ?_⟩
    intro content _ ref _ _ hpath
    have hfirst := congrArg (fun s : String => s.toList.head?) hpath
    simp [sampleStores, Stores.memory, stumpKeyPrefix] at hfirst

/-- A subtree is announced under the key of a STUMP: the reference of the STUMP then names the bytes
of the subtree. -/
theorem stump_overwritten :
    ∃ b, sampleStores.machine.exec .empty [.put [1] 5 .done, .storeSubtree
        "stump/4bf5122f344554c53bde2ebb8cd2b7e3d1600ad631c385a5d7cce23c7785459a" [2] 0 .done] =
        some b ∧
      sampleStores.stumpRefFor [1] =
        "4bf5122f344554c53bde2ebb8cd2b7e3d1600ad631c385a5d7cce23c7785459a" ∧
      sampleStores.getStump b
        "4bf5122f344554c53bde2ebb8cd2b7e3d1600ad631c385a5d7cce23c7785459a" = some [2] ∧
      sampleStores.stumpRefFor [2] ≠
        "4bf5122f344554c53bde2ebb8cd2b7e3d1600ad631c385a5d7cce23c7785459a" :=
  ⟨_, rfl, by decide, by decide, by decide⟩

end Store

end MerkleService
