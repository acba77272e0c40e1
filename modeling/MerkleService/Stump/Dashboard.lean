import MerkleService.Data.JsObject
import MerkleService.Stump.Proof

/-!
# The verifier of the dashboard

`stumpComputeMerkleRoot` (`internal/api/dashboard.html`) computes the root of a decoded STUMP level
by level, in objects whose keys are offsets: it takes over the hashes that are given, lets a
duplicate marker repeat its sibling, and hashes all pairs that are complete, except where the parent
is given itself.  The result is the node at offset 0 of the highest level that has one.

* `stumpComputeMerkleRoot` follows the code.
* `known` : what is known of a node, from the data of its level and the nodes of the level below.
* `stumpComputeMerkleRoot_eq` : **the code computes the known nodes**, and returns the highest one
  at offset 0.
* `stumpComputeMerkleRoot_build` : **for every STUMP that `Build` builds, it returns the root of the
  subtree**.
-/

namespace MerkleService

namespace Stump

namespace Dashboard

/-! ### The code -/

/-- A digest of SHA-256. -/
abbrev Digest := {b : Bytes // b.length = 32}

/-- An entry of `hashByLevel`. -/
structure Entry where
  flag : ℕ
  hash : Option String
  deriving DecidableEq, Repr

/-- The value in a condition: `null`, `undefined` and the empty string count as false. -/
def truthy (hash : Option String) : Option String := hash.filter (· ≠ "")

/-- The loop over the leaves of a level. -/
def addLevel (byLevel : ℕ → JsObject Entry) (lvl : DecodedLevel) : ℕ → JsObject Entry :=
  Function.update byLevel lvl.levelIndex (lvl.leaves.foldl (fun object leaf =>
    object.set leaf.offset ⟨leaf.flag, leaf.hash⟩) (byLevel lvl.levelIndex))

/-- The objects `hashByLevel[lvl]`, empty for a level without one. -/
def hashByLevel (bump : DecodedBUMP) : ℕ → JsObject Entry :=
  bump.levels.foldl addLevel fun _ => .empty

/-- `off ^ 1` on 32-bit integers; `none` where the result is negative, which is no offset. -/
def sibOff (off : ℕ) : Option ℕ :=
  if off % 2 ^ 32 < 2 ^ 31 then some (off % 2 ^ 32 ^^^ 1) else none

/-- The hash of an entry, if there is one. -/
def hashOf (entry : Option Entry) : Option String := truthy (entry.bind Entry.hash)

/-- `if (hash) computed[lvl][off] = hash`. -/
def assign (computed : JsObject String) (off : ℕ) : Option String → JsObject String
  | some hash => computed.set off hash
  | none => computed

/-- The body of the loop over the data of a level. -/
def fill (levelData : JsObject Entry) (computed : JsObject String) (off : ℕ) : JsObject String :=
  match levelData.get off with
  | none => computed
  | some entry =>
    if entry.flag = 0x01 then
      assign computed off ((hashOf ((sibOff off).bind levelData.get)).or
        (truthy ((sibOff off).bind computed.get)))
    else assign computed off (truthy entry.hash)

/-- `stumpHexToBytes` of a text of hexadecimal digits. -/
def stumpHexToBytes (hex : String) : Bytes := (Hex.decode hex).getD []

def stumpBytesToHex (bytes : Bytes) : String :=
  String.ofList (bytes.flatMap fun b => (if b.toNat < 16 then ['0'] else []) ++ toString16 b)

section

variable (sha256 : Bytes → Digest)

def stumpSha256d (data : Bytes) : Bytes := (sha256 (sha256 data).1).1

/-- The parent of two nodes of 32 bytes each. -/
def parentHash (left right : String) : String :=
  stumpBytesToHex (stumpSha256d sha256 (stumpHexToBytes left ++ stumpHexToBytes right))

/-- The variables of the loop over the pairs of a level: `next` is `computed[lvl + 1]`. -/
structure Pairs where
  processedPairs : List ℕ := []
  next : JsObject String := .empty

/-- The body of the loop over the offsets of a level. -/
def pairUp (nextData : JsObject Entry) (computed : JsObject String) (pairs : Pairs) (o : ℕ) :
    Pairs :=
  let pairBase := o - o % 2
  if pairBase ∈ pairs.processedPairs then pairs
  else
    let processedPairs := pairBase :: pairs.processedPairs
    match truthy (computed.get pairBase), truthy (computed.get (jsNumber (pairBase + 1))) with
    | some left, some right =>
      let parentOff := pairBase / 2
      if (hashOf (nextData.get parentOff)).isSome then { pairs with processedPairs }
      else ⟨processedPairs, pairs.next.set parentOff (parentHash sha256 left right)⟩
    | _, _ => { pairs with processedPairs }

/-- The keys of both objects. -/
def allOffsets (levelData : JsObject Entry) (computed : JsObject String) : JsObject Unit :=
  (levelData.forIn ++ computed.forIn).foldl (fun object k => object.set k ()) .empty

/-- The loop over the levels: `remaining` of them from `lvl` on, where `computed` is the object of
level `lvl`.  The objects of all these levels, and of the one above. -/
def computeLevels (byLevel : ℕ → JsObject Entry) :
    (remaining lvl : ℕ) → (computed : JsObject String) → List (JsObject String)
  | 0, _, computed => [computed]
  | remaining + 1, lvl, computed =>
    let levelData := byLevel lvl
    let computed := levelData.forIn.foldl (fill levelData) computed
    let pairs := (allOffsets levelData computed).forIn.foldl
      (pairUp sha256 (byLevel (lvl + 1)) computed) {}
    computed :: computeLevels byLevel remaining (lvl + 1) pairs.next

/-- The root, `none` for `null`. -/
def stumpComputeMerkleRoot (bump : DecodedBUMP) : Option String :=
  (computeLevels sha256 (hashByLevel bump) bump.treeHeight 0 .empty).reverse.findSome?
    fun computed => truthy (computed.get 0)

end

/-! ### The loop over the data of a level -/

/-- The entry is a duplicate marker. -/
def isDuplicate (entry : Option Entry) : Bool := entry.any (·.flag = 0x01)

/-- What is known of a node from the data of its level and from the level below: its own hash, or
that of its sibling for a duplicate marker.  (Of two markers, both repeat the right one if it is
known from below, and otherwise the left one.) -/
def filled (data : ℕ → Option Entry) (below : ℕ → Option String) (o : ℕ) : Option String :=
  if isDuplicate (data o) then
    (hashOf (data (o ^^^ 1))).or
      (if isDuplicate (data (o ^^^ 1)) then (below (o - o % 2 + 1)).or (below (o - o % 2))
      else (below (o ^^^ 1)).or (below o))
  else (hashOf (data o)).or (below o)

section

variable {data : ℕ → Option Entry} {below : ℕ → Option String} {o : ℕ}

theorem filled_of_not_duplicate (h : ¬ isDuplicate (data o) = true) :
    filled data below o = (hashOf (data o)).or (below o) := if_neg h

theorem filled_of_duplicate (h : isDuplicate (data o) = true)
    (hsib : ¬ isDuplicate (data (o ^^^ 1)) = true) :
    filled data below o = (hashOf (data (o ^^^ 1))).or ((below (o ^^^ 1)).or (below o)) := by
  rw [filled, if_pos h, if_neg hsib]

theorem filled_of_duplicates (h : isDuplicate (data o) = true)
    (hsib : isDuplicate (data (o ^^^ 1)) = true) :
    filled data below o =
      (hashOf (data (o ^^^ 1))).or ((below (o - o % 2 + 1)).or (below (o - o % 2))) := by
  rw [filled, if_pos h, if_pos hsib]

end

/-- No node has the empty text as its hash. -/
def NonEmpty (row : ℕ → Option String) : Prop := ∀ o, row o ≠ some ""

theorem truthy_eq {hash : Option String} (h : hash ≠ some "") : truthy hash = hash := by
  cases hash with
  | none => rfl
  | some hash =>
    have hne : hash ≠ "" := by
      rintro rfl
      exact h rfl
    simp [truthy, hne]

theorem hashOf_ne_empty (entry : Option Entry) : hashOf entry ≠ some "" := by
  simp [hashOf, truthy, Option.filter_eq_some_iff]

theorem or_ne_empty {a b : Option String} (ha : a ≠ some "") (hb : b ≠ some "") :
    a.or b ≠ some "" := by
  cases a with
  | none => simpa using hb
  | some a => simpa using ha

theorem nonEmpty_filled (data : ℕ → Option Entry) {below : ℕ → Option String}
    (h : NonEmpty below) : NonEmpty (filled data below) := by
  intro o
  unfold filled
  split_ifs
  · exact or_ne_empty (hashOf_ne_empty _) (or_ne_empty (h _) (h _))
  · exact or_ne_empty (hashOf_ne_empty _) (or_ne_empty (h _) (h _))
  · exact or_ne_empty (hashOf_ne_empty _) (h _)

theorem sibOff_of_lt {off : ℕ} (h : off < 2 ^ 31) : sibOff off = some (off ^^^ 1) := by
  rw [sibOff, Nat.mod_eq_of_lt (by omega), if_pos h]

theorem get_assign_self (computed : JsObject String) (off : ℕ) (hash : Option String) :
    (assign computed off hash).get off = hash.or (computed.get off) := by
  cases hash <;> simp [assign]

theorem get_assign_of_ne (computed : JsObject String) {off o : ℕ} (h : o ≠ off)
    (hash : Option String) : (assign computed off hash).get o = computed.get o := by
  cases hash with
  | none => rfl
  | some hash => exact Function.update_of_ne h _ _

theorem get_fill_of_ne (levelData : JsObject Entry) (computed : JsObject String) {off o : ℕ}
    (h : o ≠ off) : (fill levelData computed off).get o = computed.get o := by
  unfold fill
  split
  · rfl
  · split_ifs
    · exact get_assign_of_ne _ h _
    · exact get_assign_of_ne _ h _

theorem xor_one_lt_iff (o : ℕ) : o ^^^ 1 < o ↔ o % 2 = 1 := by
  rcases Nat.even_or_odd o with h | h
  · rw [Nat.xor_one_of_even h]
    have := Nat.even_iff.1 h
    omega
  · rw [Nat.xor_one_of_odd h]
    have := Nat.odd_iff.1 h
    have := h.pos
    omega

theorem xor_one_eq (o : ℕ) : o ^^^ 1 = if o % 2 = 1 then o - 1 else o + 1 := by
  split_ifs with h
  · exact Nat.xor_one_of_odd (Nat.odd_iff.2 h)
  · exact Nat.xor_one_of_even (Nat.even_iff.2 (by omega))

section

variable {levelData : JsObject Entry} {computed : JsObject String}

/-- What an iteration leaves at its own offset, if the siblings before it are done. -/
theorem get_fill_self (hdup : ∀ o, isDuplicate (levelData.get o) = true →
    hashOf (levelData.get o) = none) (hne : NonEmpty computed.get) {before : JsObject String}
    {x : ℕ} (hlt : x < 2 ^ 31) (hx : (levelData.get x).isSome = true)
    (hself : before.get x = computed.get x)
    (hsib : before.get (x ^^^ 1) = if (levelData.get (x ^^^ 1)).isSome = true ∧ x ^^^ 1 < x
      then filled levelData.get computed.get (x ^^^ 1) else computed.get (x ^^^ 1)) :
    (fill levelData before x).get x = filled levelData.get computed.get x := by
  obtain ⟨entry, hentry⟩ := Option.isSome_iff_exists.1 hx
  have hsibNe : before.get (x ^^^ 1) ≠ some "" := by
    rw [hsib]
    split_ifs
    · exact nonEmpty_filled _ hne _
    · exact hne _
  have hback : x ^^^ 1 ^^^ 1 = x := by rw [Nat.xor_assoc, Nat.xor_self, Nat.xor_zero]
  simp only [fill, hentry, sibOff_of_lt hlt, Option.bind_some]
  by_cases hflag : entry.flag = 0x01
  · have hdupx : isDuplicate (levelData.get x) = true := by simp [isDuplicate, hentry, hflag]
    rw [if_pos hflag, get_assign_self, truthy_eq hsibNe, hself, hsib]
    by_cases hdups : isDuplicate (levelData.get (x ^^^ 1)) = true
    · -- two markers: the left one is done first
      have hsome : (levelData.get (x ^^^ 1)).isSome = true := by
        cases hs : levelData.get (x ^^^ 1) with
        | none => simp [isDuplicate, hs] at hdups
        | some entry => rfl
      rw [filled_of_duplicates hdupx hdups, hdup _ hdups, Option.none_or, Option.none_or]
      by_cases hodd : x % 2 = 1
      · rw [if_pos ⟨hsome, (xor_one_lt_iff x).2 hodd⟩,
          filled_of_duplicates hdups (by rwa [hback]), hback, hdup _ hdupx, Option.none_or,
          xor_one_eq, if_pos hodd, show x - 1 - (x - 1) % 2 = x - 1 by omega, hodd,
          show x - 1 + 1 = x by omega]
        cases computed.get x <;> simp
      · rw [if_neg fun h => hodd ((xor_one_lt_iff x).1 h.2), xor_one_eq, if_neg hodd,
          show x - x % 2 = x by omega]
    · rw [filled_of_duplicate hdupx hdups]
      split_ifs with hdone
      · rw [filled_of_not_duplicate hdups]
        cases hashOf (levelData.get (x ^^^ 1)) <;> simp
      · rw [Option.or_assoc]
  · have hdupx : ¬ isDuplicate (levelData.get x) = true := by simp [isDuplicate, hentry, hflag]
    rw [if_neg hflag, get_assign_self, hself, filled_of_not_duplicate hdupx, hentry]
    rfl

theorem get_foldl_fill_of_first (hdup : ∀ o, isDuplicate (levelData.get o) = true →
    hashOf (levelData.get o) = none) (hne : NonEmpty computed.get)
    (hlt : ∀ o, (levelData.get o).isSome = true → o < 2 ^ 31) {offsets : List ℕ}
    (hsorted : offsets.Pairwise (· < ·))
    (hmem : ∀ x ∈ offsets, (levelData.get x).isSome = true)
    (hall : ∀ x ∈ offsets, ∀ o < x, (levelData.get o).isSome = true → o ∈ offsets) (o : ℕ) :
    (offsets.foldl (fill levelData) computed).get o =
      if o ∈ offsets then filled levelData.get computed.get o else computed.get o := by
  induction offsets using List.reverseRecOn generalizing o with
  | nil => rfl
  | append_singleton offsets x ih =>
    obtain ⟨hsorted', -, hlast⟩ := List.pairwise_append.1 hsorted
    have hlt' : ∀ y ∈ offsets, y < x := fun y hy => hlast y hy x (List.mem_singleton_self x)
    have hbefore := ih hsorted' (fun y hy => hmem y (List.mem_append_left _ hy)) ?_
    · rw [List.foldl_append, List.foldl_cons, List.foldl_nil]
      by_cases ho : o = x
      · subst ho
        have hx := hmem o (List.mem_append_right _ (List.mem_singleton_self o))
        rw [if_pos (List.mem_append_right _ (List.mem_singleton_self o))]
        refine get_fill_self hdup hne (hlt o hx) hx ?_ ?_
        · rw [hbefore, if_neg fun h => (hlt' o h).false]
        · rw [hbefore]
          refine if_congr ⟨fun h => ⟨hmem _ (List.mem_append_left _ h), hlt' _ h⟩, ?_⟩ rfl rfl
          rintro ⟨hsome, hbelow⟩
          have h := hall o (List.mem_append_right _ (List.mem_singleton_self o)) _ hbelow hsome
          rcases List.mem_append.1 h with h | h
          · exact h
          · exact absurd (List.mem_singleton.1 h) hbelow.ne
      · rw [get_fill_of_ne _ _ ho, hbefore]
        simp [ho]
    · intro y hy z hz hsome
      rcases List.mem_append.1 (hall y (List.mem_append_left _ hy) z hz hsome) with h | h
      · exact h
      · obtain rfl := List.mem_singleton.1 h
        exact absurd (hlt' y hy) (by omega)

/-- **The loop over the data of a level** leaves what is known of its nodes. -/
theorem get_foldl_fill (hdup : ∀ o, isDuplicate (levelData.get o) = true →
    hashOf (levelData.get o) = none) (hne : NonEmpty computed.get)
    (hlt : ∀ o, (levelData.get o).isSome = true → o < 2 ^ 31) (o : ℕ) :
    (levelData.forIn.foldl (fill levelData) computed).get o =
      filled levelData.get computed.get o := by
  have hsorted : levelData.forIn.Pairwise (· < ·) :=
    JsObject.forIn_pairwise fun k hk => by
      have := hlt k hk
      unfold JsObject.IsIndex
      omega
  rw [get_foldl_fill_of_first hdup hne hlt hsorted (fun x hx => JsObject.mem_forIn.1 hx)
    fun _ _ o _ ho => JsObject.mem_forIn.2 ho]
  split_ifs with h
  · rfl
  · have hnone : levelData.get o = none := by
      rwa [JsObject.mem_forIn, Option.not_isSome_iff_eq_none] at h
    simp [filled, hnone, isDuplicate, hashOf, truthy]

end

/-! ### The loop over the pairs of a level -/

theorem stumpBytesToHex_eq (bytes : Bytes) : stumpBytesToHex bytes = Hex.encode bytes := by
  simp only [stumpBytesToHex, toString16_padded]
  rfl

theorem stumpHexToBytes_encode (bytes : Bytes) : stumpHexToBytes (Hex.encode bytes) = bytes := by
  rw [stumpHexToBytes, Hex.decode_encode, Option.getD_some]

section

variable (sha256 : Bytes → Digest)

theorem parentHash_encode (left right : Bytes) :
    parentHash sha256 (Hex.encode left) (Hex.encode right) =
      Hex.encode (stumpSha256d sha256 (left ++ right)) := by
  rw [parentHash, stumpBytesToHex_eq, stumpHexToBytes_encode, stumpHexToBytes_encode]

theorem parentHash_ne_empty (left right : String) : parentHash sha256 left right ≠ "" := by
  rw [parentHash, stumpBytesToHex_eq]
  intro h
  have hlen := (sha256 (sha256 (stumpHexToBytes left ++ stumpHexToBytes right)).1).2
  have hnil : stumpSha256d sha256 (stumpHexToBytes left ++ stumpHexToBytes right) = [] :=
    Hex.encode_injective h
  rw [stumpSha256d] at hnil
  rw [hnil] at hlen
  cases hlen

/-- The parent of a complete pair. -/
def pairOf (row : ℕ → Option String) (p : ℕ) : Option String :=
  (row (2 * p)).bind fun left => (row (2 * p + 1)).map fun right => parentHash sha256 left right

theorem nonEmpty_pairOf (row : ℕ → Option String) : NonEmpty (pairOf sha256 row) := by
  intro p h
  obtain ⟨left, -, h⟩ := Option.bind_eq_some_iff.1 h
  obtain ⟨right, -, h⟩ := Option.map_eq_some_iff.1 h
  exact parentHash_ne_empty sha256 left right h

variable {sha256} {nextData : JsObject Entry} {computed : JsObject String}

/-- What the loop over the pairs leaves, after the offsets `offsets`. -/
structure Paired (sha256 : Bytes → Digest) (nextData : JsObject Entry)
    (computed : JsObject String) (offsets : List ℕ) (pairs : Pairs) : Prop where
  processed : ∀ b, b ∈ pairs.processedPairs ↔ ∃ o ∈ offsets, b = o - o % 2
  next : ∀ p, pairs.next.get p =
    if (∃ o ∈ offsets, 2 * p = o - o % 2) ∧ hashOf (nextData.get p) = none then
      pairOf sha256 computed.get p
    else none

theorem exists_pair_append {offsets : List ℕ} {o b : ℕ} :
    (∃ o' ∈ offsets ++ [o], b = o' - o' % 2) ↔
      (∃ o' ∈ offsets, b = o' - o' % 2) ∨ b = o - o % 2 := by
  simp only [List.mem_append, List.mem_singleton, or_and_right, exists_or, exists_eq_left]

theorem Paired.skip {offsets : List ℕ} {pairs : Pairs}
    (h : Paired sha256 nextData computed offsets pairs) {o : ℕ}
    (hold : ∃ o' ∈ offsets, o - o % 2 = o' - o' % 2) :
    Paired sha256 nextData computed (offsets ++ [o]) pairs := by
  have hsame : ∀ b, (∃ o' ∈ offsets ++ [o], b = o' - o' % 2) ↔
      ∃ o' ∈ offsets, b = o' - o' % 2 := by
    intro b
    rw [exists_pair_append, or_iff_left_of_imp]
    rintro rfl
    exact hold
  refine ⟨fun b => ?_, fun p => ?_⟩
  · rw [hsame]
    exact h.processed b
  · rw [h.next p]
    exact if_congr (and_congr_left' (hsame _).symm) rfl rfl

theorem Paired.add {offsets : List ℕ} {pairs : Pairs}
    (h : Paired sha256 nextData computed offsets pairs) {o : ℕ} {next : JsObject String}
    (hsame : ∀ p, 2 * p ≠ o - o % 2 → next.get p = pairs.next.get p)
    (hparent : ∀ p, 2 * p = o - o % 2 → next.get p =
      if hashOf (nextData.get p) = none then pairOf sha256 computed.get p else none) :
    Paired sha256 nextData computed (offsets ++ [o])
      ⟨(o - o % 2) :: pairs.processedPairs, next⟩ := by
  refine ⟨?_, ?_⟩
  · intro b
    rw [List.mem_cons, h.processed, exists_pair_append, or_comm]
  · intro p
    by_cases hp : 2 * p = o - o % 2
    · rw [hparent p hp]
      refine if_congr ?_ rfl rfl
      rw [and_iff_right (exists_pair_append.2 (.inr hp))]
    · rw [hsame p hp, h.next p]
      refine if_congr (and_congr_left' ?_) rfl rfl
      rw [exists_pair_append, or_iff_left hp]

theorem paired_pairUp (hne : NonEmpty computed.get) {offsets : List ℕ} {pairs : Pairs}
    (h : Paired sha256 nextData computed offsets pairs) {o : ℕ} (ho : o < 2 ^ 31) :
    Paired sha256 nextData computed (offsets ++ [o])
      (pairUp sha256 nextData computed pairs o) := by
  have hjs : jsNumber (o - o % 2 + 1) = o - o % 2 + 1 := jsNumber_of_lt (by omega)
  have hhalf : ∀ p, 2 * p = o - o % 2 → p = (o - o % 2) / 2 := by omega
  have hnext : ∀ p, (¬ ∃ o' ∈ offsets, o - o % 2 = o' - o' % 2) → 2 * p = o - o % 2 →
      pairs.next.get p = none := by
    intro p hnew hp
    rw [h.next, hp]
    exact if_neg fun h => hnew h.1
  simp only [pairUp, truthy_eq (hne _), hjs]
  by_cases hold : o - o % 2 ∈ pairs.processedPairs
  · rw [if_pos hold]
    exact h.skip ((h.processed _).1 hold)
  · rw [if_neg hold]
    have hnew : ¬ ∃ o' ∈ offsets, o - o % 2 = o' - o' % 2 := fun h' => hold ((h.processed _).2 h')
    cases hleft : computed.get (o - o % 2) with
    | none =>
      refine h.add (fun _ _ => rfl) fun p hp => ?_
      rw [hnext p hnew hp, pairOf, hp, hleft]
      simp
    | some left =>
      cases hright : computed.get (o - o % 2 + 1) with
      | none =>
        refine h.add (fun _ _ => rfl) fun p hp => ?_
        rw [hnext p hnew hp, pairOf, hp, hright]
        simp
      | some right =>
        dsimp only
        split_ifs with hgiven
        · refine h.add (fun _ _ => rfl) fun p hp => ?_
          rw [hnext p hnew hp, hhalf p hp, if_neg]
          rw [Option.isSome_iff_ne_none] at hgiven
          exact hgiven
        · refine h.add (fun p hp => ?_) fun p hp => ?_
          · rw [JsObject.get_set, Function.update_of_ne (by omega)]
          · rw [Option.not_isSome_iff_eq_none] at hgiven
            rw [JsObject.get_set, hhalf p hp, Function.update_self, if_pos hgiven, pairOf,
              ← hhalf p hp, hp, hleft, hright]
            rfl

/-- **The loop over the pairs** computes the parents of the complete pairs that are not given. -/
theorem get_foldl_pairUp (hne : NonEmpty computed.get) {offsets : List ℕ}
    (hlt : ∀ o ∈ offsets, o < 2 ^ 31)
    (hall : ∀ o, (computed.get o).isSome = true → o ∈ offsets) (p : ℕ) :
    (offsets.foldl (pairUp sha256 nextData computed) {}).next.get p =
      if hashOf (nextData.get p) = none then pairOf sha256 computed.get p else none := by
  have hpaired : ∀ l : List ℕ, (∀ o ∈ l, o < 2 ^ 31) → Paired sha256 nextData computed l
      (l.foldl (pairUp sha256 nextData computed) {}) := by
    intro l hl
    induction l using List.reverseRecOn with
    | nil => exact ⟨by simp, by simp⟩
    | append_singleton l o ih =>
      rw [List.foldl_append]
      exact paired_pairUp hne (ih fun o' ho' => hl o' (by simp [ho'])) (hl o (by simp))
  rw [(hpaired offsets hlt).next p]
  by_cases hpair : ∃ o ∈ offsets, 2 * p = o - o % 2
  · exact if_congr (and_iff_right hpair) rfl rfl
  · -- the left node of the pair would be among the offsets
    have hleft : computed.get (2 * p) = none := by
      by_contra hsome
      exact hpair ⟨2 * p, hall _ (Option.isSome_iff_ne_none.2 hsome), by omega⟩
    rw [if_neg fun h => hpair h.1, pairOf, hleft]
    simp

end

/-! ### The loop over the levels -/

section

variable (sha256 : Bytes → Digest) (data : ℕ → ℕ → Option Entry)

/-- **What is known of a node**, by level and offset. -/
def known : ℕ → ℕ → Option String
  | 0 => filled (data 0) fun _ => none
  | k + 1 => filled (data (k + 1)) (pairOf sha256 (known k))

/-- What is known of a node from the level below. -/
def below : ℕ → ℕ → Option String
  | 0 => fun _ => none
  | k + 1 => pairOf sha256 (known sha256 data k)

theorem known_eq (k : ℕ) : known sha256 data k = filled (data k) (below sha256 data k) := by
  cases k <;> rfl

theorem nonEmpty_below (k : ℕ) : NonEmpty (below sha256 data k) := by
  cases k with
  | zero => exact fun _ => by simp [below]
  | succ k => exact nonEmpty_pairOf sha256 _

theorem nonEmpty_known (k : ℕ) : NonEmpty (known sha256 data k) := by
  rw [known_eq]
  exact nonEmpty_filled _ (nonEmpty_below sha256 data k)

variable {sha256 data}

theorem filled_of_given {level : ℕ → Option Entry} {row : ℕ → Option String}
    (hdup : ∀ o, isDuplicate (level o) = true → hashOf (level o) = none) :
    (filled level fun o => if hashOf (level o) = none then row o else none) = filled level row := by
  funext o
  by_cases ho : isDuplicate (level o) = true
  · by_cases hs : isDuplicate (level (o ^^^ 1)) = true
    · have hpair : hashOf (level (o - o % 2 + 1)) = none ∧ hashOf (level (o - o % 2)) = none := by
        have hsib := hdup _ hs
        rw [xor_one_eq] at hsib
        split_ifs at hsib with hodd
        · rw [hodd, show o - 1 + 1 = o by omega]
          exact ⟨hdup o ho, hsib⟩
        · rw [show o - o % 2 = o by omega]
          exact ⟨hsib, hdup o ho⟩
      rw [filled_of_duplicates ho hs, filled_of_duplicates ho hs, if_pos hpair.1, if_pos hpair.2]
    · rw [filled_of_duplicate ho hs, filled_of_duplicate ho hs, if_pos (hdup o ho)]
      cases hashOf (level (o ^^^ 1)) <;> simp
  · rw [filled_of_not_duplicate ho, filled_of_not_duplicate ho]
    cases hashOf (level o) <;> simp

/-- What the decoder promises of the entries: array indices, and duplicate markers without hash. -/
structure Proper (data : ℕ → ℕ → Option Entry) : Prop where
  lt : ∀ k o, (data k o).isSome = true → o < 2 ^ 31
  duplicate : ∀ k o, isDuplicate (data k o) = true → hashOf (data k o) = none

theorem isSome_filled {level : ℕ → Option Entry} {row : ℕ → Option String} {o : ℕ}
    (h : (filled level row o).isSome = true) :
    (level o).isSome = true ∨ (row o).isSome = true := by
  by_cases hdup : isDuplicate (level o) = true
  · refine .inl ?_
    cases hl : level o with
    | none => simp [isDuplicate, hl] at hdup
    | some entry => rfl
  · rw [filled_of_not_duplicate hdup, Option.isSome_or, Bool.or_eq_true] at h
    refine h.imp_left fun h => ?_
    cases hl : level o with
    | none => simp [hashOf, hl, truthy] at h
    | some entry => rfl

theorem known_lt (h : Proper data) (k : ℕ) {o : ℕ}
    (ho : (known sha256 data k o).isSome = true) : o < 2 ^ 31 := by
  induction k generalizing o with
  | zero =>
    rcases isSome_filled ho with ho | ho
    · exact h.lt 0 o ho
    · cases ho
  | succ k ih =>
    rcases isSome_filled ho with ho | ho
    · exact h.lt (k + 1) o ho
    · -- both children are known
      obtain ⟨hash, hhash⟩ := Option.isSome_iff_exists.1 ho
      obtain ⟨left, hleft, -⟩ := Option.bind_eq_some_iff.1 hhash
      have := ih (o := 2 * o) (by rw [hleft]; rfl)
      omega

theorem get_allOffsets {levelData : JsObject Entry} {computed : JsObject String} {o : ℕ} :
    ((allOffsets levelData computed).get o).isSome = true ↔
      (levelData.get o).isSome = true ∨ (computed.get o).isSome = true := by
  have hget := JsObject.get_foldl_set (fun k => k) (fun _ => ()) (levelData.forIn ++ computed.forIn)
    .empty o
  rw [allOffsets, hget, JsObject.get_empty, Option.or_none, Option.isSome_map, List.find?_isSome]
  simp [JsObject.mem_forIn, or_comm]

/-- **The loop over the levels** computes the known nodes. -/
theorem computeLevels_eq {byLevel : ℕ → JsObject Entry} (h : Proper fun k => (byLevel k).get)
    {remaining lvl : ℕ} (htop : ∀ o, (byLevel (lvl + remaining)).get o = none)
    {computed : JsObject String}
    (hcomputed : ∀ o, computed.get o = if hashOf ((byLevel lvl).get o) = none then
      below sha256 (fun k => (byLevel k).get) lvl o else none) :
    (computeLevels sha256 byLevel remaining lvl computed).map JsObject.get =
      (List.range (remaining + 1)).map fun j =>
        known sha256 (fun k => (byLevel k).get) (lvl + j) := by
  induction remaining generalizing lvl computed with
  | zero =>
    have hget : computed.get = known sha256 (fun k => (byLevel k).get) lvl := by
      funext o
      rw [hcomputed, known_eq]
      rw [Nat.add_zero] at htop
      simp [htop, filled, isDuplicate, hashOf, truthy]
    simp [computeLevels, hget]
  | succ remaining ih =>
    have hne : NonEmpty computed.get := by
      intro o
      rw [hcomputed]
      split_ifs
      · exact nonEmpty_below _ _ _ o
      · simp
    have hget : ((byLevel lvl).forIn.foldl (fill (byLevel lvl)) computed).get =
        known sha256 (fun k => (byLevel k).get) lvl := by
      funext o
      rw [get_foldl_fill (h.duplicate lvl) hne (h.lt lvl), funext hcomputed,
        filled_of_given (h.duplicate lvl), known_eq]
    have hknown : NonEmpty ((byLevel lvl).forIn.foldl (fill (byLevel lvl)) computed).get := by
      rw [hget]
      exact nonEmpty_known _ _ lvl
    rw [computeLevels, List.map_cons, hget, List.range_succ_eq_map, List.map_cons, List.map_map,
      Nat.add_zero]
    congr 1
    rw [ih (by rwa [Nat.add_right_comm])]
    · apply List.map_congr_left
      intro j _
      rw [Function.comp_apply, Nat.add_assoc, Nat.add_comm 1]
    · intro o
      rw [get_foldl_pairUp hknown]
      · rw [hget]
        rfl
      · intro o' ho'
        rcases get_allOffsets.1 (JsObject.mem_forIn.1 ho') with ho' | ho'
        · exact h.lt lvl o' ho'
        · rw [hget] at ho'
          exact known_lt h lvl ho'
      · intro o' ho'
        exact JsObject.mem_forIn.2 (get_allOffsets.2 (.inr ho'))

end

/-! ### What is decoded -/

/-- The entry of a level at an offset: the last leaf with this offset. -/
def entryAt (leaves : List DecodedLeaf) (o : ℕ) : Option Entry :=
  (leaves.reverse.find? fun leaf => leaf.offset = o).map fun leaf => ⟨leaf.flag, leaf.hash⟩

/-- The entries of all levels. -/
def entries (bump : DecodedBUMP) (k : ℕ) : ℕ → Option Entry :=
  entryAt ((bump.levels[k]?.map DecodedLevel.leaves).getD [])

/-- A leaf as it is decoded. -/
def Leafy (leaf : DecodedLeaf) : Prop :=
  leaf.flag = 0x01 ∧ leaf.hash = none ∨
    leaf.flag ≠ 0x01 ∧ ∃ b : Bytes, b.length = 32 ∧ leaf.hash = some (Hex.encode b)

/-- What the decoder promises. -/
structure Decoded (bump : DecodedBUMP) : Prop where
  length : bump.levels.length = bump.treeHeight
  index : ∀ (i : ℕ) (level : DecodedLevel), bump.levels[i]? = some level → level.levelIndex = i
  leaf : ∀ level ∈ bump.levels, ∀ leaf ∈ level.leaves, Leafy leaf

theorem exists_of_bind_eq_ok {ε α β : Type} {x : Except ε α} {f : α → Except ε β} {b : β}
    (h : x >>= f = .ok b) : ∃ a, x = .ok a ∧ f a = .ok b := by
  cases x with
  | error e => cases h
  | ok a => exact ⟨a, rfl, h⟩

section

variable {texts : Texts} {bytes : Bytes}

theorem exists_of_readHash {pos : ℕ} {hash : String} (h : readHash texts bytes pos = .ok hash) :
    ∃ b : Bytes, b.length = 32 ∧ hash = Hex.encode b := by
  unfold readHash at h
  split_ifs at h
  refine ⟨(List.range 32).map fun i => bytes[pos + i]?.getD 0, by simp, ?_⟩
  rw [← Except.ok.inj h]
  simp only [toString16_padded, Hex.encode, Hex.encodeChars, List.flatMap_map]

theorem leafy_of_decodeLeaf {lvl j pos pos' : ℕ} {leaf : DecodedLeaf}
    (h : decodeLeaf texts bytes lvl j pos = .ok (leaf, pos')) : Leafy leaf := by
  obtain ⟨⟨offset, n⟩, -, h⟩ := exists_of_bind_eq_ok h
  dsimp only at h
  split_ifs at h with hend hflag hone
  · obtain ⟨hash, hread, h⟩ := exists_of_bind_eq_ok h
    obtain ⟨b, hb, rfl⟩ := exists_of_readHash hread
    obtain ⟨rfl, -⟩ := Prod.mk.inj (Except.ok.inj h)
    refine .inr ⟨fun heq => hone ?_, b, hb, rfl⟩
    exact UInt8.toNat_inj.1 heq
  · obtain ⟨rfl, -⟩ := Prod.mk.inj (Except.ok.inj h)
    refine .inl ⟨?_, rfl⟩
    rw [not_not] at hone
    rw [hone]
    rfl

theorem leafy_of_decodeLeaves {lvl remaining j pos pos' : ℕ} {leaves : List DecodedLeaf}
    (h : decodeLeaves texts bytes lvl remaining j pos = .ok (leaves, pos')) :
    ∀ leaf ∈ leaves, Leafy leaf := by
  induction remaining generalizing j pos pos' leaves with
  | zero =>
    obtain ⟨rfl, -⟩ := Prod.mk.inj (Except.ok.inj h)
    exact List.forall_mem_nil _
  | succ remaining ih =>
    obtain ⟨⟨leaf, pos₁⟩, hleaf, h⟩ := exists_of_bind_eq_ok h
    obtain ⟨⟨leaves', pos₂⟩, hleaves, h⟩ := exists_of_bind_eq_ok h
    obtain ⟨rfl, -⟩ := Prod.mk.inj (Except.ok.inj h)
    exact List.forall_mem_cons.2 ⟨leafy_of_decodeLeaf hleaf, ih hleaves⟩

theorem decodeLevels_ok {remaining lvl pos pos' : ℕ} {levels : List DecodedLevel}
    (h : decodeLevels texts bytes remaining lvl pos = .ok (levels, pos')) :
    levels.length = remaining ∧
      (∀ (i : ℕ) (level : DecodedLevel), levels[i]? = some level → level.levelIndex = lvl + i) ∧
      ∀ level ∈ levels, ∀ leaf ∈ level.leaves, Leafy leaf := by
  induction remaining generalizing lvl pos pos' levels with
  | zero =>
    obtain ⟨rfl, -⟩ := Prod.mk.inj (Except.ok.inj h)
    exact ⟨rfl, by simp, List.forall_mem_nil _⟩
  | succ remaining ih =>
    obtain ⟨⟨nLeaves, n⟩, -, h⟩ := exists_of_bind_eq_ok h
    obtain ⟨⟨leaves, pos₁⟩, hleaves, h⟩ := exists_of_bind_eq_ok h
    obtain ⟨⟨levels', pos₂⟩, hlevels, h⟩ := exists_of_bind_eq_ok h
    obtain ⟨rfl, -⟩ := Prod.mk.inj (Except.ok.inj h)
    obtain ⟨hlen, hindex, hleaf⟩ := ih hlevels
    refine ⟨by rw [List.length_cons, hlen], ?_,
      List.forall_mem_cons.2 ⟨leafy_of_decodeLeaves hleaves, hleaf⟩⟩
    intro i level hi
    cases i with
    | zero =>
      rw [List.getElem?_cons_zero, Option.some.injEq] at hi
      rw [← hi]
      rfl
    | succ i =>
      rw [List.getElem?_cons_succ] at hi
      rw [hindex i level hi]
      omega

theorem decoded_of_stumpDecodeBUMP {bump : DecodedBUMP} (h : stumpDecodeBUMP bytes = .ok bump) :
    Decoded bump := by
  unfold stumpDecodeBUMP at h
  cases hdecode : decode apiTexts bytes with
  | error e =>
    rw [hdecode] at h
    cases h
  | ok result =>
    rw [hdecode] at h
    obtain rfl := Except.ok.inj h
    obtain ⟨⟨blockHeight, pos⟩, -, hdecode⟩ := exists_of_bind_eq_ok hdecode
    dsimp only at hdecode
    split_ifs at hdecode
    obtain ⟨⟨levels, pos'⟩, hlevels, hdecode⟩ := exists_of_bind_eq_ok hdecode
    obtain rfl := Except.ok.inj hdecode
    obtain ⟨hlen, hindex, hleaf⟩ := decodeLevels_ok hlevels
    exact ⟨hlen, fun i level hi => by rw [hindex i level hi, Nat.zero_add], hleaf⟩

end

theorem get_foldl_addLevel {levels : List DecodedLevel}
    (hindex : ∀ (i : ℕ) (level : DecodedLevel), levels[i]? = some level → level.levelIndex = i)
    (k : ℕ) : (levels.foldl addLevel (fun _ => .empty) k).get =
      entryAt ((levels[k]?.map DecodedLevel.leaves).getD []) := by
  induction levels using List.reverseRecOn generalizing k with
  | nil => rfl
  | append_singleton levels level ih =>
    have hlast : level.levelIndex = levels.length := hindex levels.length level (by simp)
    have hbefore := ih fun i l hi => by
      have hlt := (List.getElem?_eq_some_iff.1 hi).1
      exact hindex i l (by rwa [List.getElem?_append_left hlt])
    rw [List.foldl_append, List.foldl_cons, List.foldl_nil, addLevel, hlast]
    rcases lt_trichotomy k levels.length with hk | rfl | hk
    · rw [Function.update_of_ne hk.ne, hbefore, List.getElem?_append_left hk]
    · rw [Function.update_self]
      funext o
      have hnone : levels[levels.length]? = none := by simp
      rw [JsObject.get_foldl_set (fun leaf : DecodedLeaf => leaf.offset), hbefore, hnone]
      simp [entryAt]
    · have hnone : levels[k]? = none := by simp [hk.le]
      have hnone' : (levels ++ [level])[k]? = none := by
        rw [List.getElem?_eq_none_iff, List.length_append, List.length_singleton]
        omega
      rw [Function.update_of_ne hk.ne', hbefore, hnone, hnone']

theorem get_hashByLevel {bump : DecodedBUMP} (h : Decoded bump) (k : ℕ) :
    (hashByLevel bump k).get = entries bump k := get_foldl_addLevel h.index k

theorem exists_leaf_of_entries {bump : DecodedBUMP} {k o : ℕ} {entry : Entry}
    (h : entries bump k o = some entry) :
    ∃ level ∈ bump.levels, ∃ leaf ∈ level.leaves,
      leaf.offset = o ∧ entry = ⟨leaf.flag, leaf.hash⟩ := by
  obtain ⟨leaf, hfind, rfl⟩ := Option.map_eq_some_iff.1 h
  have hmem := List.mem_reverse.1 (List.mem_of_find?_eq_some hfind)
  cases hlevel : bump.levels[k]? with
  | none =>
    rw [hlevel] at hmem
    cases hmem
  | some level =>
    rw [hlevel] at hmem
    exact ⟨level, List.mem_of_getElem? hlevel, leaf, hmem, by simpa using List.find?_some hfind,
      rfl⟩

theorem proper_entries {bump : DecodedBUMP} (h : Decoded bump)
    (hlt : ∀ level ∈ bump.levels, ∀ leaf ∈ level.leaves, leaf.offset < 2 ^ 31) :
    Proper (entries bump) where
  lt := by
    intro k o ho
    obtain ⟨entry, hentry⟩ := Option.isSome_iff_exists.1 ho
    obtain ⟨level, hlevel, leaf, hleaf, rfl, -⟩ := exists_leaf_of_entries hentry
    exact hlt level hlevel leaf hleaf
  duplicate := by
    intro k o ho
    cases hentry : entries bump k o with
    | none => rfl
    | some entry =>
      obtain ⟨level, hlevel, leaf, hleaf, -, rfl⟩ := exists_leaf_of_entries hentry
      rcases h.leaf level hlevel leaf hleaf with ⟨-, hnone⟩ | ⟨hflag, -⟩
      · simp [hashOf, hnone, truthy]
      · simp [hentry, isDuplicate, hflag] at ho

/-- **The code computes the known nodes** and returns that of the highest level with a node at
offset 0. -/
theorem stumpComputeMerkleRoot_eq (sha256 : Bytes → Digest) {bump : DecodedBUMP} (h : Decoded bump)
    (hlt : ∀ level ∈ bump.levels, ∀ leaf ∈ level.leaves, leaf.offset < 2 ^ 31) :
    stumpComputeMerkleRoot sha256 bump =
      (List.range (bump.treeHeight + 1)).reverse.findSome? fun k =>
        known sha256 (entries bump) k 0 := by
  have hget : (fun k => (hashByLevel bump k).get) = entries bump := funext (get_hashByLevel h)
  have hlevels := @computeLevels_eq sha256 (hashByLevel bump)
    (by rw [hget]; exact proper_entries h hlt) bump.treeHeight 0 ?_ .empty ?_
  · rw [hget] at hlevels
    simp only [Nat.zero_add] at hlevels
    have htruthy : ∀ computed ∈ (computeLevels sha256 (hashByLevel bump) bump.treeHeight 0
        .empty).reverse, truthy (computed.get 0) = computed.get 0 := by
      intro computed hmem
      have hrow := List.mem_map_of_mem (f := JsObject.get) (List.mem_reverse.1 hmem)
      rw [hlevels] at hrow
      obtain ⟨k, -, hk⟩ := List.mem_map.1 hrow
      rw [← hk]
      exact truthy_eq (nonEmpty_known _ _ k 0)
    have hrows : (computeLevels sha256 (hashByLevel bump) bump.treeHeight 0 .empty).reverse.map
        (fun computed => truthy (computed.get 0)) =
          (List.range (bump.treeHeight + 1)).reverse.map fun k =>
            known sha256 (entries bump) k 0 := by
      rw [List.map_congr_left htruthy]
      have hmap := congrArg (fun rows => rows.reverse.map fun row : ℕ → Option String => row 0)
        hlevels
      simpa only [← List.map_reverse, List.map_map, Function.comp_def] using hmap
    have hfind := congrArg (List.findSome? id) hrows
    simp only [List.findSome?_map, Function.id_comp] at hfind
    exact hfind
  · intro o
    rw [get_hashByLevel h, Nat.zero_add, entries]
    have hnone : bump.levels[bump.treeHeight]? = none := by simp [h.length]
    rw [hnone]
    rfl
  · intro o
    simp [below]

theorem known_treeHeight (sha256 : Bytes → Digest) {bump : DecodedBUMP} (h : Decoded bump) :
    known sha256 (entries bump) bump.treeHeight = below sha256 (entries bump) bump.treeHeight := by
  have hnone : bump.levels[bump.treeHeight]? = none := by simp [h.length]
  funext o
  rw [known_eq, entries, hnone]
  simp [filled, entryAt, isDuplicate, hashOf, truthy]

theorem stumpComputeMerkleRoot_of_below {sha256 : Bytes → Digest} {bump : DecodedBUMP}
    (h : Decoded bump)
    (hlt : ∀ level ∈ bump.levels, ∀ leaf ∈ level.leaves, leaf.offset < 2 ^ 31) {root : String}
    (hroot : below sha256 (entries bump) bump.treeHeight 0 = some root) :
    stumpComputeMerkleRoot sha256 bump = some root := by
  rw [← known_treeHeight sha256 h] at hroot
  rw [stumpComputeMerkleRoot_eq sha256 h hlt, List.range_succ, List.reverse_append,
    List.reverse_singleton, List.singleton_append, List.findSome?_cons, hroot]

/-! ### What the builder builds -/

section

variable (sha256 : Bytes → Digest)

/-- The hash of a pair: double SHA-256 of both. -/
def pairHash (left right : Bytes) : Bytes := stumpSha256d sha256 (left ++ right)

variable {sha256} {leaves : List Bytes} {registeredIndices : RegisteredIndices leaves.length}

theorem length_treeNode (sha256 : Bytes → Digest) (hlen : ∀ l ∈ leaves, l.length = 32) (k i : ℕ) :
    (treeNode (pairHash sha256) leaves k i).length = 32 := by
  cases k with
  | zero =>
    rw [treeNode, MerkleTree.node, paddedLeaf, List.getD_eq_getElem?_getD]
    cases hget : leaves[i]? with
    | none => rfl
    | some l => exact hlen l (List.mem_of_getElem? hget)
  | succ k =>
    rw [treeNode, MerkleTree.node, MerkleTree.paddedParent]
    split_ifs
    · rfl
    · exact (sha256 _).2
    · exact (sha256 _).2

/-- The STUMP of the builder, as it is decoded. -/
def builtBUMP (sha256 : Bytes → Digest) (leaves : List Bytes)
    (registeredIndices : RegisteredIndices leaves.length) (blockHeight : ℕ) : DecodedBUMP :=
  { STUMP.decoded ⟨blockHeight, Nat.clog 2 leaves.length,
      (List.range (Nat.clog 2 leaves.length)).map
        (levelOf leaves (merkleTreeStore (pairHash sha256) leaves) registeredIndices)⟩ with
    blockHeight := jsNumber blockHeight }

theorem entries_builtBUMP {blockHeight k : ℕ} (hk : k < Nat.clog 2 leaves.length) (o : ℕ) :
    entries (builtBUMP sha256 leaves registeredIndices blockHeight) k o =
      if o ∈ pathOffsets registeredIndices.keys k then
        let leaf := (siblingLeaf leaves (merkleTreeStore (pairHash sha256) leaves)
          registeredIndices k (MerkleTree.realCount leaves.length k) o).decoded
        some ⟨leaf.flag, leaf.hash⟩
      else none := by
  have hlevel : (builtBUMP sha256 leaves registeredIndices blockHeight).levels[k]? =
      some ⟨k, ((pathOffsets registeredIndices.keys k).sort.map (siblingLeaf leaves
        (merkleTreeStore (pairHash sha256) leaves) registeredIndices k
          (MerkleTree.realCount leaves.length k))).map Leaf.decoded⟩ := by
    simp [builtBUMP, STUMP.decoded, levelOf, hk]
  rw [entries, hlevel, Option.map_some, Option.getD_some, entryAt, List.map_map,
    ← List.map_reverse]
  split_ifs with ho
  · rw [find?_map_eq (List.mem_reverse.2 ((Finset.mem_sort _).2 ho)) (by simp [Leaf.decoded])
      (by simp [Leaf.decoded])]
    rfl
  · have hnone : List.find? (fun leaf : DecodedLeaf => leaf.offset = o)
        (List.map (Leaf.decoded ∘ siblingLeaf leaves (merkleTreeStore (pairHash sha256) leaves)
          registeredIndices k (MerkleTree.realCount leaves.length k))
          (pathOffsets registeredIndices.keys k).sort.reverse) = none := by
      rw [List.find?_eq_none]
      intro leaf hleaf
      obtain ⟨o', ho', rfl⟩ := List.mem_map.1 hleaf
      have hne : o' ≠ o := by
        rintro rfl
        exact ho ((Finset.mem_sort _).1 (List.mem_reverse.1 ho'))
      simpa [Leaf.decoded] using hne
    rw [hnone]
    rfl

theorem hashOf_encode {flag : ℕ} {b : Bytes} (hlen : b.length = 32) :
    hashOf (some ⟨flag, some (Hex.encode b)⟩) = some (Hex.encode b) := by
  refine truthy_eq ?_
  rw [Option.bind_some, Ne, Option.some.injEq]
  intro h
  have hnil : b = [] := Hex.encode_injective h
  rw [hnil] at hlen
  cases hlen

theorem entries_of_real (sha256 : Bytes → Digest) (hlen : ∀ l ∈ leaves, l.length = 32)
    (blockHeight : ℕ) {k o : ℕ} (hk : k < Nat.clog 2 leaves.length)
    (ho : o ∈ pathOffsets registeredIndices.keys k)
    (hreal : o < MerkleTree.realCount leaves.length k) :
    let entry := entries (builtBUMP sha256 leaves registeredIndices blockHeight) k o
    isDuplicate entry = false ∧
      hashOf entry = some (Hex.encode (treeNode (pairHash sha256) leaves k o)) := by
  have hencode := @hashOf_encode 0 _ (length_treeNode sha256 hlen k o)
  have hencode' := @hashOf_encode 2 _ (length_treeNode sha256 hlen k o)
  dsimp only
  rw [entries_builtBUMP hk, if_pos ho, siblingLeaf, if_neg (not_le.2 hreal), getNode_store hk hreal]
  simp only [Leaf.decoded, Leaf.flags, Bool.false_eq_true, ↓reduceIte]
  split_ifs
  · exact ⟨rfl, hencode'⟩
  · exact ⟨rfl, hencode⟩

theorem entries_of_padding (sha256 : Bytes → Digest) (blockHeight : ℕ) {k o : ℕ}
    (hk : k < Nat.clog 2 leaves.length) (ho : o ∈ pathOffsets registeredIndices.keys k)
    (hpad : MerkleTree.realCount leaves.length k ≤ o) :
    isDuplicate (entries (builtBUMP sha256 leaves registeredIndices blockHeight) k o) = true := by
  rw [entries_builtBUMP hk, if_pos ho, siblingLeaf, if_pos hpad]
  rfl

/-- Of a node above a registered leaf and of its sibling, what is known is the node of the tree,
where a padding node stands for its sibling. -/
structure OnPath (sha256 : Bytes → Digest) (leaves : List Bytes) (row : ℕ → Option String)
    (k q : ℕ) : Prop where
  node : row q = some (Hex.encode (treeNode (pairHash sha256) leaves k q))
  sibling : row (q ^^^ 1) = some (Hex.encode
    (if MerkleTree.realCount leaves.length k ≤ q ^^^ 1 then treeNode (pairHash sha256) leaves k q
    else treeNode (pairHash sha256) leaves k (q ^^^ 1)))

theorem onPath_known (hlen : ∀ l ∈ leaves, l.length = 32) {blockHeight k r : ℕ}
    (hk : k < Nat.clog 2 leaves.length) (hr : r ∈ registeredIndices.keys)
    (hreal : r / 2 ^ k < MerkleTree.realCount leaves.length k)
    (hbelow : k ≠ 0 →
      below sha256 (entries (builtBUMP sha256 leaves registeredIndices blockHeight)) k (r / 2 ^ k) =
        some (Hex.encode (treeNode (pairHash sha256) leaves k (r / 2 ^ k)))) :
    OnPath sha256 leaves
      (known sha256 (entries (builtBUMP sha256 leaves registeredIndices blockHeight)) k) k
      (r / 2 ^ k) := by
  set data := entries (builtBUMP sha256 leaves registeredIndices blockHeight)
  set q := r / 2 ^ k with hq
  have hsib : q ^^^ 1 ∈ pathOffsets registeredIndices.keys k :=
    mem_pathOffsets.2 (.inl ⟨r, hr, rfl⟩)
  have hback : q ^^^ 1 ^^^ 1 = q := by rw [Nat.xor_assoc, Nat.xor_self, Nat.xor_zero]
  -- the node is given, or known from below
  have hnode : ¬ isDuplicate (data k q) = true ∧ (hashOf (data k q)).or (below sha256 data k q) =
      some (Hex.encode (treeNode (pairHash sha256) leaves k q)) := by
    by_cases hgiven : q ∈ pathOffsets registeredIndices.keys k
    · obtain ⟨hdup, hhash⟩ := entries_of_real sha256 hlen blockHeight hk hgiven hreal
      exact ⟨by simp [data, hdup], by rw [hhash]; rfl⟩
    · have hk0 : k ≠ 0 := by
        rintro rfl
        rw [pow_zero, Nat.div_one] at hq
        exact hgiven (mem_pathOffsets.2 (.inr ⟨rfl, hq ▸ hr⟩))
      have hnone : data k q = none := (entries_builtBUMP hk q).trans (if_neg hgiven)
      refine ⟨by simp [hnone, isDuplicate], ?_⟩
      rw [hnone, hbelow hk0]
      rfl
  refine ⟨?_, ?_⟩
  · rw [known_eq, filled_of_not_duplicate hnode.1]
    exact hnode.2
  · rw [known_eq]
    split_ifs with hpad
    · have hdup := entries_of_padding sha256 blockHeight hk hsib hpad
      rw [filled_of_duplicate hdup (by rw [hback]; exact hnode.1), hback, ← Option.or_assoc,
        hnode.2]
      rfl
    · obtain ⟨hdup, hhash⟩ := entries_of_real sha256 hlen blockHeight hk hsib (not_le.1 hpad)
      rw [filled_of_not_duplicate (by simp [data, hdup]), hhash]
      rfl

theorem OnPath.parent (hhash : ∀ l r, pairHash sha256 l r ≠ zeroHash)
    (hleaves : ∀ l ∈ leaves, l ≠ zeroHash) {row : ℕ → Option String} {k q : ℕ}
    (h : OnPath sha256 leaves row k q) (hreal : q < MerkleTree.realCount leaves.length k) :
    pairOf sha256 row (q / 2) =
      some (Hex.encode (treeNode (pairHash sha256) leaves (k + 1) (q / 2))) := by
  have hzero : ∀ i, paddedLeaf leaves i = zeroHash ↔ leaves.length ≤ i := paddedLeaf_eq_zero hleaves
  have hstep := MerkleTree.node_succ_eq hhash hzero hreal
  dsimp only at hstep
  have hxor := xor_one_eq q
  by_cases hodd : q % 2 = 1
  · rw [if_pos hodd] at hxor
    rw [if_neg (show ¬ q % 2 = 0 by omega)] at hstep
    have hpair : 2 * (q / 2) = q ^^^ 1 ∧ 2 * (q / 2) + 1 = q := by omega
    rw [treeNode, hstep, pairOf, hpair.2, hpair.1, h.node, h.sibling]
    simp only [Option.bind_some, Option.map_some, parentHash_encode]
    rfl
  · rw [if_neg hodd] at hxor
    rw [if_pos (show q % 2 = 0 by omega)] at hstep
    have hpair : 2 * (q / 2) = q ∧ 2 * (q / 2) + 1 = q ^^^ 1 := by omega
    rw [treeNode, hstep, pairOf, hpair.2, hpair.1, h.node, h.sibling]
    simp only [Option.bind_some, Option.map_some, parentHash_encode]
    rfl

/-- **What is known from below**, on the path of a registered leaf. -/
theorem below_builtBUMP (hhash : ∀ l r, pairHash sha256 l r ≠ zeroHash)
    (hleaves : ∀ l ∈ leaves, l ≠ zeroHash) (hlen : ∀ l ∈ leaves, l.length = 32)
    {blockHeight k r : ℕ} (hk : k < Nat.clog 2 leaves.length) (hr : r ∈ registeredIndices.keys) :
    r / 2 ^ (k + 1) < MerkleTree.realCount leaves.length (k + 1) ∧
      below sha256 (entries (builtBUMP sha256 leaves registeredIndices blockHeight)) (k + 1)
        (r / 2 ^ (k + 1)) =
          some (Hex.encode (treeNode (pairHash sha256) leaves (k + 1) (r / 2 ^ (k + 1)))) := by
  have hdiv : ∀ j, r / 2 ^ j / 2 = r / 2 ^ (j + 1) := by
    intro j
    rw [Nat.div_div_eq_div_mul, pow_succ]
  induction k with
  | zero =>
    have hreal : r / 2 ^ 0 < MerkleTree.realCount leaves.length 0 := by
      simpa [MerkleTree.realCount] using registeredIndices.lt r hr
    have hpath := @onPath_known sha256 leaves registeredIndices hlen blockHeight 0 r hk hr hreal
      fun h => absurd rfl h
    rw [← hdiv 0]
    exact ⟨MerkleTree.div_two_lt_realCount hreal, hpath.parent hhash hleaves hreal⟩
  | succ k ih =>
    obtain ⟨hreal, hbelow⟩ := ih (by omega)
    have hpath := onPath_known hlen hk hr hreal fun _ => hbelow
    rw [← hdiv (k + 1)]
    exact ⟨MerkleTree.div_two_lt_realCount hreal, hpath.parent hhash hleaves hreal⟩

theorem offset_lt_builtBUMP (sha256 : Bytes → Digest) (hmax : leaves.length ≤ 2 ^ 31)
    (blockHeight : ℕ) :
    ∀ level ∈ (builtBUMP sha256 leaves registeredIndices blockHeight).levels,
      ∀ leaf ∈ level.leaves, leaf.offset < 2 ^ 31 := by
  intro level hlevel leaf hleaf
  obtain ⟨k, hk, rfl⟩ := List.mem_mapIdx.1 hlevel
  obtain ⟨leaf', hleaf', rfl⟩ := List.mem_map.1 hleaf
  simp only [List.getElem_map, levelOf] at hleaf'
  obtain ⟨o, ho, rfl⟩ := List.mem_map.1 hleaf'
  change (siblingLeaf _ _ _ _ _ o).offset < 2 ^ 31
  rw [siblingLeaf_offset]
  rcases mem_pathOffsets.1 ((Finset.mem_sort _).1 ho) with ⟨r, hr, rfl⟩ | ⟨-, hmem⟩
  · have hr' := registeredIndices.lt r hr
    refine Nat.xor_lt_two_pow ?_ (by omega)
    exact (Nat.div_le_self r _).trans_lt (by omega)
  · have ho' := registeredIndices.lt o hmem
    omega

/-- **The dashboard accepts every STUMP.**  For 2 to `2 ^ 31` leaves of 32 bytes, none of them zero,
and a hash that is never zero: what the dashboard computes from the encoding of the STUMP for any
set of leaves that is not empty is the last inner node, the root of the subtree. -/
theorem stumpComputeMerkleRoot_build (hhash : ∀ l r, pairHash sha256 l r ≠ zeroHash)
    (hn : 2 ≤ leaves.length) (hmax : leaves.length ≤ 2 ^ 31) (hleaves : ∀ l ∈ leaves, l ≠ zeroHash)
    (hlen : ∀ l ∈ leaves, l.length = 32) (hreg : registeredIndices.keys ≠ []) (order : MapOrder)
    {blockHeight : ℕ} (hheight : blockHeight < 2 ^ 64) :
    ∃ bump root, stumpDecodeBUMP (encode (build leaves (merkleTreeStore (pairHash sha256) leaves)
        registeredIndices order blockHeight)) = .ok bump ∧
      (merkleTreeStore (pairHash sha256) leaves).getLast? = some root ∧
      stumpComputeMerkleRoot sha256 bump = some (Hex.encode root) := by
  have hdecode : stumpDecodeBUMP (encode (build leaves (merkleTreeStore (pairHash sha256) leaves)
      registeredIndices order blockHeight)) =
        .ok (builtBUMP sha256 leaves registeredIndices blockHeight) := by
    have hzero := encodable_of_build hlen (by omega)
      (fun _ => length_of_mem_merkleTreeStore fun l r => (sha256 _).2) (by omega)
      (@build_eq leaves (merkleTreeStore (pairHash sha256) leaves) registeredIndices order 0 hn
        hreg)
    rw [build_eq order blockHeight hn hreg, stumpDecodeBUMP, encode,
      decode_encode_jsNumber apiTexts hheight hzero]
    rfl
  refine ⟨_, _, hdecode, getLast?_merkleTreeStore _ hn, ?_⟩
  obtain ⟨r, hr⟩ := List.exists_mem_of_ne_nil _ hreg
  obtain ⟨h, hh⟩ := Nat.exists_eq_succ_of_ne_zero
    (show Nat.clog 2 leaves.length ≠ 0 from (Nat.clog_pos (by omega) (by omega)).ne')
  have hroot : r / 2 ^ (h + 1) = 0 := by
    have hle := Nat.le_pow_clog (show 1 < 2 by omega) leaves.length
    rw [hh] at hle
    exact Nat.div_eq_of_lt ((registeredIndices.lt r hr).trans_le hle)
  obtain ⟨-, hbelow⟩ := @below_builtBUMP sha256 leaves registeredIndices hhash hleaves hlen
    blockHeight h r (by omega) hr
  refine stumpComputeMerkleRoot_of_below (decoded_of_stumpDecodeBUMP hdecode)
    (offset_lt_builtBUMP sha256 hmax blockHeight) ?_
  rw [show (builtBUMP sha256 leaves registeredIndices blockHeight).treeHeight = h + 1 from hh, hh,
    ← hroot]
  exact hbelow

end

/-- SHA-256 of some texts, and a digest for all others. -/
def sampleSha256 (data : Bytes) : Digest :=
  if data = List.replicate 32 1 ++ List.replicate 32 2 then
    ⟨stumpHexToBytes "f818afd37a6dc3bc92fb44731011277006db4efa6e9023cd7468c02335d22a4d", by decide⟩
  else if Hex.encode data = "f818afd37a6dc3bc92fb44731011277006db4efa6e9023cd7468c02335d22a4d" then
    ⟨stumpHexToBytes "39ce20bede82c96b8908bec4a157b09c549b3db90b9b474bda9ae9b9030310b4", by decide⟩
  else ⟨List.replicate 32 1, rfl⟩

/-- Two leaves, of which the first is registered. -/
theorem stumpComputeMerkleRoot_build_two :
    let leaves : List Bytes := [List.replicate 32 1, List.replicate 32 2]
    let registered : RegisteredIndices leaves.length := ⟨[0], by decide, by decide⟩
    ∃ bump root, stumpDecodeBUMP (encode (build leaves (merkleTreeStore (pairHash sampleSha256)
        leaves) registered .insertion (2 ^ 64 - 1))) = .ok bump ∧
      (merkleTreeStore (pairHash sampleSha256) leaves).getLast? = some root ∧
      stumpComputeMerkleRoot sampleSha256 bump = some (Hex.encode root) := by
  have hzero : ∀ data, (sampleSha256 data).1 ≠ zeroHash := by
    intro data
    unfold sampleSha256
    split_ifs <;> decide
  exact stumpComputeMerkleRoot_build (fun l r => hzero _) (by decide) (by decide) (by decide)
    (by decide) (by decide) .insertion (by decide)

end Dashboard

end Stump

end MerkleService
