import MerkleService.Data.Hex
import MerkleService.Data.List
import MerkleService.Stump.Builder

/-!
# The BUMP format: encoder and decoders

`STUMP.Encode` (`internal/stump/builder.go`) writes a STUMP in BRC-74 BUMP format: block height,
tree height and for each level its leaves, with CompactSize numbers and a flag byte that says
whether a 32-byte hash follows.  The dashboards read it back with two JavaScript decoders,
`decodeBUMP` (`tools/debug-dashboard/templates/stump.html`) and `stumpDecodeBUMP`
(`internal/api/dashboard.html`), which differ in nothing but the texts of their errors (`Texts`).

* `encode`, `decodeBUMP`, `stumpDecodeBUMP` : the code.
* `readCompactSize_occursAt` : a number below `2 ^ 53` is read back from any position.
* `decodeBUMP_encode` : **both decoders undo the encoder** and stop at the end of its output.
-/

namespace MerkleService

namespace Stump

/-! ### The encoder -/

/-- `binary.LittleEndian.PutUint16/32/64`: the low `n` bytes of `v`. -/
def putUint (n v : ℕ) : Bytes := (List.range n).map fun i => UInt8.ofNat (v >>> (8 * i))

/-- A Bitcoin CompactSize unsigned integer appended to `buf`. -/
def appendCompactSize (buf : Bytes) (v : ℕ) : Bytes :=
  if v < 253 then buf ++ [UInt8.ofNat v]
  else if v ≤ 0xFFFF then buf ++ (0xFD :: putUint 2 v)
  else if v ≤ 0xFFFFFFFF then buf ++ (0xFE :: putUint 4 v)
  else buf ++ (0xFF :: putUint 8 v)

/-- The flags byte of a leaf. -/
def Leaf.flags (leaf : Leaf) : UInt8 :=
  if leaf.duplicate then 0x01 else if leaf.txID then 0x02 else 0x00

def encodeLeaf (buf : Bytes) (leaf : Leaf) : Bytes :=
  let buf := appendCompactSize buf leaf.offset ++ [leaf.flags]
  if leaf.duplicate then buf else buf ++ leaf.hash

def encodeLevel (buf : Bytes) (level : PathLevel) : Bytes :=
  level.leaves.foldl encodeLeaf (appendCompactSize buf level.leaves.length)

/-- `STUMP.Encode`, for a receiver that is not nil. -/
def STUMP.encode (s : STUMP) : Bytes :=
  let buf := appendCompactSize [] s.blockHeight ++ [UInt8.ofNat s.treeHeight]
  s.paths.foldl encodeLevel buf

/-- `STUMP.Encode`; nil gives nil. -/
def encode : Option STUMP → Bytes
  | none => []
  | some s => s.encode

/-! ### The decoders -/

/-- The integer as a JavaScript number: a double, rounded to 53 bits, ties to even. -/
def jsNumber (n : ℕ) : ℕ :=
  if n < 2 ^ 53 then n
  else
    let e := Nat.log2 n - 52
    let q := n / 2 ^ e
    let r := n % 2 ^ e
    if 2 ^ e < 2 * r ∨ (2 ^ e = 2 * r ∧ q % 2 = 1) then (q + 1) * 2 ^ e else q * 2 ^ e

/-- `b.toString(16)` of a byte. -/
def toString16 (b : UInt8) : List Char :=
  if b.toNat < 16 then [Hex.digit b.toNat] else [Hex.digit (b.toNat / 16), Hex.digit (b.toNat % 16)]

/-- The texts of the errors of a decoder. -/
structure Texts where
  endOfData : (pos : ℕ) → String
  compactSizeFD : (pos : ℕ) → String
  compactSizeFE : (pos : ℕ) → String
  compactSizeFF : (pos : ℕ) → String
  hash : (pos : ℕ) → String
  treeHeight : (pos : ℕ) → String
  flag : (pos lvl : ℕ) → String
  invalidFlag : (flag : String) → (pos lvl leaf : ℕ) → String

structure DecodedLeaf where
  offset : ℕ
  flag : ℕ
  hash : Option String
  deriving DecidableEq, Repr

structure DecodedLevel where
  levelIndex : ℕ
  leaves : List DecodedLeaf
  deriving DecidableEq, Repr

structure DecodedBUMP where
  blockHeight : ℕ
  treeHeight : ℕ
  levels : List DecodedLevel
  deriving DecidableEq, Repr

section

variable (texts : Texts) (data : Bytes)

/-- `data[i]` as a number (an index past the end would be `undefined`, which the operators below
take as 0). -/
def byteAt (i : ℕ) : ℕ := (data[i]?.getD 0).toNat

/-- `x << k` on 32-bit integers, as unsigned value. -/
def shl32 (x k : ℕ) : ℕ := x <<< k % 2 ^ 32

/-- Four bytes combined with `|` and `<<`, then `>>> 0`. -/
def uint32At (i : ℕ) : ℕ :=
  byteAt data i ||| shl32 (byteAt data (i + 1)) 8 ||| shl32 (byteAt data (i + 2)) 16 |||
    shl32 (byteAt data (i + 3)) 24

/-- `readCompactSize`: the value and the number of bytes read. -/
def readCompactSize (offset : ℕ) : Except String (ℕ × ℕ) :=
  if data.length ≤ offset then .error (texts.endOfData offset)
  else
    let first := byteAt data offset
    if first < 253 then .ok (first, 1)
    else if first = 0xFD then
      if data.length < offset + 3 then .error (texts.compactSizeFD offset)
      else .ok (byteAt data (offset + 1) ||| shl32 (byteAt data (offset + 2)) 8, 3)
    else if first = 0xFE then
      if data.length < offset + 5 then .error (texts.compactSizeFE offset)
      else .ok (uint32At data (offset + 1), 5)
    else if data.length < offset + 9 then .error (texts.compactSizeFF offset)
    else
      let lo := uint32At data (offset + 1)
      let hi := uint32At data (offset + 5)
      .ok (jsNumber (hi * 0x100000000 + lo), 9)

/-- `readHash`: 32 bytes as hexadecimal text. -/
def readHash (offset : ℕ) : Except String String :=
  if data.length < offset + 32 then .error (texts.hash offset)
  else .ok (String.ofList ((List.range 32).flatMap fun i =>
    let b := data[offset + i]?.getD 0
    (if b.toNat < 16 then ['0'] else []) ++ toString16 b))

/-- One leaf, and the position behind it. -/
def decodeLeaf (lvl j pos : ℕ) : Except String (DecodedLeaf × ℕ) := do
  let (offset, n) ← readCompactSize texts data pos
  let pos := pos + n
  if data.length ≤ pos then .error (texts.flag pos lvl)
  else
    let flag := data[pos]?.getD 0
    let pos := pos + 1
    if flag ≠ 0x00 ∧ flag ≠ 0x01 ∧ flag ≠ 0x02 then
      .error (texts.invalidFlag (String.ofList (toString16 flag)) (pos - 1) lvl j)
    else if flag ≠ 0x01 then do
      let hash ← readHash texts data pos
      .ok (⟨offset, flag.toNat, some hash⟩, pos + 32)
    else .ok (⟨offset, flag.toNat, none⟩, pos)

/-- The loop over the leaves of a level: `remaining` of them from leaf `j` on. -/
def decodeLeaves (lvl : ℕ) : (remaining j pos : ℕ) → Except String (List DecodedLeaf × ℕ)
  | 0, _, pos => .ok ([], pos)
  | remaining + 1, j, pos => do
    let (leaf, pos) ← decodeLeaf texts data lvl j pos
    let (leaves, pos) ← decodeLeaves lvl remaining (j + 1) pos
    .ok (leaf :: leaves, pos)

/-- The loop over the levels. -/
def decodeLevels : (remaining lvl pos : ℕ) → Except String (List DecodedLevel × ℕ)
  | 0, _, pos => .ok ([], pos)
  | remaining + 1, lvl, pos => do
    let (nLeaves, n) ← readCompactSize texts data pos
    let (leaves, pos) ← decodeLeaves texts data lvl nLeaves 0 (pos + n)
    let (levels, pos) ← decodeLevels remaining (lvl + 1) pos
    .ok (⟨lvl, leaves⟩ :: levels, pos)

/-- The decoder, with the position at which it stops. -/
def decode : Except String (DecodedBUMP × ℕ) := do
  let (blockHeight, pos) ← readCompactSize texts data 0
  if data.length ≤ pos then .error (texts.treeHeight pos)
  else
    let treeHeight := byteAt data pos
    let (levels, pos) ← decodeLevels texts data treeHeight 0 (pos + 1)
    .ok (⟨blockHeight, treeHeight, levels⟩, pos)

end

/-- The texts of `decodeBUMP`. -/
def debugTexts : Texts where
  endOfData pos := s!"Unexpected end of data at byte {pos}"
  compactSizeFD pos :=
    s!"Unexpected end of data at byte {pos} (expected 2 more bytes for 0xFD CompactSize)"
  compactSizeFE pos :=
    s!"Unexpected end of data at byte {pos} (expected 4 more bytes for 0xFE CompactSize)"
  compactSizeFF pos :=
    s!"Unexpected end of data at byte {pos} (expected 8 more bytes for 0xFF CompactSize)"
  hash pos := s!"Unexpected end of data at byte {pos} (expected 32 bytes for hash)"
  treeHeight pos := s!"Unexpected end of data at byte {pos} (expected tree height)"
  flag pos lvl := s!"Unexpected end of data at byte {pos} (expected flag at level {lvl})"
  invalidFlag flag pos lvl leaf :=
    s!"Invalid flag 0x{flag} at byte {pos} (level {lvl}, leaf {leaf})"

/-- The texts of `stumpDecodeBUMP`. -/
def apiTexts : Texts where
  endOfData pos := s!"Unexpected end of data at byte {pos}"
  compactSizeFD _ := "Unexpected end of data (0xFD CompactSize)"
  compactSizeFE _ := "Unexpected end of data (0xFE CompactSize)"
  compactSizeFF _ := "Unexpected end of data (0xFF CompactSize)"
  hash _ := "Unexpected end of data (expected 32 bytes for hash)"
  treeHeight _ := "Unexpected end of data (expected tree height)"
  flag _ _ := "Unexpected end of data (expected flag)"
  invalidFlag flag _ _ _ := s!"Invalid flag 0x{flag}"

/-- `decodeBUMP` of the debug dashboard. -/
def decodeBUMP (data : Bytes) : Except String DecodedBUMP := (decode debugTexts data).map Prod.fst

/-- `stumpDecodeBUMP` of the API dashboard. -/
def stumpDecodeBUMP (data : Bytes) : Except String DecodedBUMP :=
  (decode apiTexts data).map Prod.fst

/-! ### Reading a number back -/

theorem appendCompactSize_eq (buf : Bytes) (v : ℕ) :
    appendCompactSize buf v = buf ++ appendCompactSize [] v := by
  unfold appendCompactSize
  split_ifs <;> simp

theorem appendCompactSize_ne_nil (v : ℕ) : appendCompactSize [] v ≠ [] := by
  unfold appendCompactSize
  split_ifs <;> simp

theorem or_shl32 {a b : ℕ} {k : ℕ} (ha : a < 2 ^ k) (hb : b < 2 ^ 8) (hk : k + 8 ≤ 32) :
    a ||| shl32 b k = a + b * 2 ^ k := by
  have hlt : b * 2 ^ k < 2 ^ 32 := calc
    b * 2 ^ k < 2 ^ 8 * 2 ^ k := Nat.mul_lt_mul_of_pos_right hb (Nat.two_pow_pos k)
    _ = 2 ^ (k + 8) := by rw [← pow_add, Nat.add_comm]
    _ ≤ 2 ^ 32 := Nat.pow_le_pow_right (by omega) hk
  rw [shl32, Nat.shiftLeft_eq, Nat.mod_eq_of_lt hlt, Nat.or_comm, ← Nat.shiftLeft_eq,
    ← Nat.shiftLeft_add_eq_or_of_lt ha, Nat.add_comm]

theorem byteAt_lt (data : Bytes) (i : ℕ) : byteAt data i < 2 ^ 8 := (data[i]?.getD 0).toNat_lt

theorem uint32At_eq (data : Bytes) (i : ℕ) :
    uint32At data i = byteAt data i + byteAt data (i + 1) * 2 ^ 8 + byteAt data (i + 2) * 2 ^ 16 +
      byteAt data (i + 3) * 2 ^ 24 := by
  have h0 := byteAt_lt data i
  have h1 := byteAt_lt data (i + 1)
  have h2 := byteAt_lt data (i + 2)
  have h3 := byteAt_lt data (i + 3)
  rw [uint32At, or_shl32 h0 h1 (by omega), or_shl32 (by omega) h2 (by omega),
    or_shl32 (by omega) h3 (by omega)]

theorem byteAt_putUint {data : Bytes} {pos n v : ℕ} (h : data.OccursAt pos (putUint n v)) {i : ℕ}
    (hi : i < n) : byteAt data (pos + i) = v / 2 ^ (8 * i) % 2 ^ 8 := by
  rw [byteAt, h.getElem? (by simpa [putUint] using hi)]
  simp [putUint, hi, Nat.shiftRight_eq_div_pow]

theorem uint32At_putUint {data : Bytes} {pos n v k : ℕ} (h : data.OccursAt pos (putUint n v))
    (hk : k + 4 ≤ n) : uint32At data (pos + k) = v / 2 ^ (8 * k) % 2 ^ 32 := by
  rw [uint32At_eq, Nat.add_assoc pos k 1, Nat.add_assoc pos k 2, Nat.add_assoc pos k 3,
    byteAt_putUint h (by omega), byteAt_putUint h (by omega), byteAt_putUint h (by omega),
    byteAt_putUint h (by omega), Nat.mul_add, Nat.mul_add, Nat.mul_add]
  simp only [pow_add, ← Nat.div_div_eq_div_mul]
  omega

theorem jsNumber_of_lt {n : ℕ} (h : n < 2 ^ 53) : jsNumber n = n := if_pos h

/-- **A number is read back** from wherever it stands, rounded like any number. -/
theorem readCompactSize_jsNumber (texts : Texts) {data : Bytes} {pos v : ℕ} (hv : v < 2 ^ 64)
    (h : data.OccursAt pos (appendCompactSize [] v)) :
    readCompactSize texts data pos = .ok (jsNumber v, (appendCompactSize [] v).length) := by
  have hlen := h.length_le (appendCompactSize_ne_nil v)
  have hfirst := h.getElem? (i := 0) (List.length_pos_iff.2 (appendCompactSize_ne_nil v))
  rw [Nat.add_zero] at hfirst
  unfold appendCompactSize at *
  split_ifs at * with h1 h2 h3
  · rw [jsNumber_of_lt (by omega)]
    have hb : byteAt data pos = v := by
      rw [byteAt, hfirst]
      simp
      omega
    simp only [List.nil_append, List.length_singleton] at hlen ⊢
    simp [readCompactSize, hb, h1, show ¬ data.length ≤ pos by omega]
  · rw [jsNumber_of_lt (by omega)]
    have hb : byteAt data pos = 0xFD := by rw [byteAt, hfirst]; rfl
    rw [List.nil_append, List.occursAt_cons] at h
    have h0 := byteAt_putUint (i := 0) h.2 (by omega)
    have h1 := byteAt_putUint (i := 1) h.2 (by omega)
    have hval : byteAt data (pos + 1) ||| shl32 (byteAt data (pos + 2)) 8 = v := by
      rw [or_shl32 (byteAt_lt _ _) (byteAt_lt _ _) (by omega), h0, h1]
      omega
    simp only [List.nil_append, List.length_cons, putUint, List.length_map,
      List.length_range] at hlen ⊢
    simp [readCompactSize, hb, hval, show ¬ data.length ≤ pos by omega,
      show ¬ data.length < pos + 3 by omega]
  · rw [jsNumber_of_lt (by omega)]
    have hb : byteAt data pos = 0xFE := by rw [byteAt, hfirst]; rfl
    rw [List.nil_append, List.occursAt_cons] at h
    have hval : uint32At data (pos + 1) = v := by
      rw [uint32At_putUint (k := 0) h.2 (by omega)]
      omega
    simp only [List.nil_append, List.length_cons, putUint, List.length_map,
      List.length_range] at hlen ⊢
    simp [readCompactSize, hb, hval, show ¬ data.length ≤ pos by omega,
      show ¬ data.length < pos + 5 by omega]
  · have hb : byteAt data pos = 0xFF := by rw [byteAt, hfirst]; rfl
    rw [List.nil_append, List.occursAt_cons] at h
    have hlo := uint32At_putUint (k := 0) h.2 (by omega)
    have hhi := uint32At_putUint (k := 4) h.2 (by omega)
    have hval : uint32At data (pos + 5) * 0x100000000 + uint32At data (pos + 1) = v := by
      rw [show pos + 5 = pos + 1 + 4 by omega, hhi]
      rw [Nat.add_zero] at hlo
      rw [hlo]
      omega
    simp only [List.nil_append, List.length_cons, putUint, List.length_map,
      List.length_range] at hlen ⊢
    simp only [readCompactSize, hb, hval, show ¬ data.length ≤ pos by omega,
      show ¬ data.length < pos + 9 by omega, ↓reduceIte]
    rfl

theorem readCompactSize_occursAt (texts : Texts) {data : Bytes} {pos v : ℕ} (hv : v < 2 ^ 53)
    (h : data.OccursAt pos (appendCompactSize [] v)) :
    readCompactSize texts data pos = .ok (v, (appendCompactSize [] v).length) := by
  rw [readCompactSize_jsNumber texts (by omega) h, jsNumber_of_lt hv]

/-! ### Reading a STUMP back -/

/-- A leaf as the decoders show it: no hash for a duplicate. -/
def Leaf.decoded (leaf : Leaf) : DecodedLeaf :=
  ⟨leaf.offset, leaf.flags.toNat, if leaf.duplicate then none else some (Hex.encode leaf.hash)⟩

/-- A STUMP as the decoders show it. -/
def STUMP.decoded (s : STUMP) : DecodedBUMP :=
  ⟨s.blockHeight, s.treeHeight, s.paths.mapIdx fun i level => ⟨i, level.leaves.map Leaf.decoded⟩⟩

/-- The leaf can be encoded without loss: non-duplicate leaves carry 32-byte hashes and duplicate
ones are not txids. -/
structure Leaf.Encodable (leaf : Leaf) : Prop where
  offset : leaf.offset < 2 ^ 53
  hash : leaf.duplicate = false → leaf.hash.length = 32
  flags : ¬ (leaf.duplicate = true ∧ leaf.txID = true)

/-- The STUMP can be encoded without loss; its tree height is a byte. -/
structure STUMP.Encodable (s : STUMP) : Prop where
  blockHeight : s.blockHeight < 2 ^ 53
  treeHeight : s.treeHeight < 2 ^ 8
  paths : s.paths.length = s.treeHeight
  leafCount : ∀ level ∈ s.paths, level.leaves.length < 2 ^ 53
  leaf : ∀ level ∈ s.paths, ∀ leaf ∈ level.leaves, leaf.Encodable

theorem encodeLeaf_eq (buf : Bytes) (leaf : Leaf) :
    encodeLeaf buf leaf = buf ++ encodeLeaf [] leaf := by
  unfold encodeLeaf
  rw [appendCompactSize_eq buf]
  split_ifs <;> simp

theorem foldl_encodeLeaf (buf : Bytes) (leaves : List Leaf) :
    leaves.foldl encodeLeaf buf = buf ++ leaves.flatMap (encodeLeaf []) := by
  induction leaves generalizing buf with
  | nil => simp
  | cons leaf leaves ih => rw [List.foldl_cons, ih, encodeLeaf_eq, List.flatMap_cons,
      List.append_assoc]

theorem encodeLevel_eq (buf : Bytes) (level : PathLevel) :
    encodeLevel buf level = buf ++ (appendCompactSize [] level.leaves.length ++
      level.leaves.flatMap (encodeLeaf [])) := by
  rw [encodeLevel, foldl_encodeLeaf, appendCompactSize_eq buf, List.append_assoc]

theorem foldl_encodeLevel (buf : Bytes) (levels : List PathLevel) :
    levels.foldl encodeLevel buf = buf ++ levels.flatMap (encodeLevel []) := by
  induction levels generalizing buf with
  | nil => simp
  | cons level levels ih =>
    rw [List.foldl_cons, ih, encodeLevel_eq, List.flatMap_cons, encodeLevel_eq [],
      List.append_assoc, List.nil_append]

/-- The digits of a byte, with a leading zero where `toString(16)` gives only one. -/
theorem toString16_padded (b : UInt8) :
    (if b.toNat < 16 then ['0'] else []) ++ toString16 b = Hex.byteDigits b := by
  unfold toString16 Hex.byteDigits
  split_ifs with hb
  · rw [Nat.div_eq_of_lt hb, Nat.mod_eq_of_lt hb]
    rfl
  · rfl

section

variable (texts : Texts) {data : Bytes}

theorem readHash_occursAt {pos : ℕ} {hash : Bytes} (hlen : hash.length = 32)
    (h : data.OccursAt pos hash) : readHash texts data pos = .ok (Hex.encode hash) := by
  have hle := h.length_le (by rintro rfl; simp at hlen)
  have hread : (List.range 32).map (fun i => data[pos + i]?.getD 0) = hash := by
    refine List.ext_getElem (by simp [hlen]) fun i h1 h2 => ?_
    simp [h.getElem? h2, List.getElem?_eq_getElem h2]
  rw [readHash, if_neg (by omega)]
  simp only [toString16_padded, Hex.encode, Hex.encodeChars]
  rw [← hread, List.flatMap_map]

theorem decodeLeaf_occursAt {pos : ℕ} {leaf : Leaf} (hleaf : leaf.Encodable) (lvl j : ℕ)
    (h : data.OccursAt pos (encodeLeaf [] leaf)) :
    decodeLeaf texts data lvl j pos = .ok (leaf.decoded, pos + (encodeLeaf [] leaf).length) := by
  have hsplit : encodeLeaf [] leaf = appendCompactSize [] leaf.offset ++
      (leaf.flags :: if leaf.duplicate then [] else leaf.hash) := by
    unfold encodeLeaf
    split_ifs <;> simp
  rw [hsplit, List.occursAt_append, List.occursAt_cons] at h
  obtain ⟨hoff, hflag, hhash⟩ := h
  have hle := hflag.length_le (by simp)
  have hget : data[pos + (appendCompactSize [] leaf.offset).length]? = some leaf.flags :=
    hflag.getElem? (i := 0) (by simp)
  rw [decodeLeaf, readCompactSize_occursAt texts hleaf.offset hoff, hsplit]
  simp only [List.length_singleton] at hle
  have hlt : ¬ data.length ≤ pos + (appendCompactSize [] leaf.offset).length := by omega
  simp only [bind, Except.bind, if_neg hlt, hget, Option.getD_some]
  cases hd : leaf.duplicate with
  | true => simp [Leaf.flags, hd, Leaf.decoded, Nat.add_assoc]
  | false =>
    have hread := readHash_occursAt texts (hleaf.hash hd) (by simpa [hd] using hhash)
    rw [Nat.add_assoc] at hread
    cases ht : leaf.txID <;>
      simp [Leaf.flags, hd, ht, hread, Leaf.decoded, hleaf.hash hd, Nat.add_assoc, Nat.add_comm 1]

/-- **The loop over the leaves of a level.** -/
theorem decodeLeaves_occursAt {leaves : List Leaf} (hleaves : ∀ leaf ∈ leaves, leaf.Encodable)
    (lvl j : ℕ) {pos : ℕ} (h : data.OccursAt pos (leaves.flatMap (encodeLeaf []))) :
    decodeLeaves texts data lvl leaves.length j pos =
      .ok (leaves.map Leaf.decoded, pos + (leaves.flatMap (encodeLeaf [])).length) := by
  induction leaves generalizing j pos with
  | nil => rfl
  | cons leaf leaves ih =>
    rw [List.flatMap_cons, List.occursAt_append] at h
    rw [List.length_cons, decodeLeaves,
      decodeLeaf_occursAt texts (hleaves leaf List.mem_cons_self) lvl j h.1]
    simp only [bind, Except.bind]
    rw [ih (fun l hl => hleaves l (List.mem_cons_of_mem _ hl)) (j + 1) h.2]
    simp [Nat.add_assoc]

/-- **The loop over the levels.** -/
theorem decodeLevels_occursAt {levels : List PathLevel}
    (hcount : ∀ level ∈ levels, level.leaves.length < 2 ^ 53)
    (hleaves : ∀ level ∈ levels, ∀ leaf ∈ level.leaves, leaf.Encodable) (lvl : ℕ) {pos : ℕ}
    (h : data.OccursAt pos (levels.flatMap (encodeLevel []))) :
    decodeLevels texts data levels.length lvl pos =
      .ok (levels.mapIdx fun i level => ⟨lvl + i, level.leaves.map Leaf.decoded⟩,
        pos + (levels.flatMap (encodeLevel [])).length) := by
  induction levels generalizing lvl pos with
  | nil => rfl
  | cons level levels ih =>
    rw [List.flatMap_cons, List.occursAt_append] at h
    obtain ⟨h1, h2⟩ := h
    rw [encodeLevel_eq, List.nil_append] at h1 h2
    rw [List.occursAt_append] at h1
    rw [List.length_cons, decodeLevels,
      readCompactSize_occursAt texts (hcount level List.mem_cons_self) h1.1]
    simp only [bind, Except.bind]
    rw [decodeLeaves_occursAt texts (hleaves level List.mem_cons_self) lvl 0 h1.2]
    dsimp only
    rw [Nat.add_assoc, ← List.length_append,
      ih (fun l hl => hcount l (List.mem_cons_of_mem _ hl))
        (fun l hl => hleaves l (List.mem_cons_of_mem _ hl)) (lvl + 1) h2]
    rw [List.mapIdx_cons, List.flatMap_cons, encodeLevel_eq, List.nil_append]
    simp only [List.length_append, Nat.add_assoc, Nat.add_comm 1]
    rfl

/-- The decoder undoes the encoder, whatever its texts, but rounds the block height. -/
theorem decode_encode_jsNumber {s : STUMP} (hblock : s.blockHeight < 2 ^ 64)
    (hs : STUMP.Encodable { s with blockHeight := 0 }) :
    decode texts s.encode =
      .ok ({ s.decoded with blockHeight := jsNumber s.blockHeight }, s.encode.length) := by
  have henc : s.encode = appendCompactSize [] s.blockHeight ++ (UInt8.ofNat s.treeHeight ::
      s.paths.flatMap (encodeLevel [])) := by
    rw [STUMP.encode, foldl_encodeLevel, List.append_assoc, List.singleton_append]
  have hocc : s.encode.OccursAt 0 s.encode := ⟨[], by simp⟩
  rw [henc, List.occursAt_append, List.occursAt_cons, ← henc] at hocc
  obtain ⟨hheight, htree, hpaths⟩ := hocc
  have hbyte : byteAt s.encode (appendCompactSize [] s.blockHeight).length = s.treeHeight := by
    have hget := htree.getElem? (i := 0) (by simp)
    rw [Nat.zero_add, Nat.add_zero] at hget
    rw [byteAt, hget]
    simpa using hs.treeHeight
  have hle := htree.length_le (by simp)
  simp only [Nat.zero_add, List.length_singleton] at hle hpaths
  have hlt : ¬ s.encode.length ≤ (appendCompactSize [] s.blockHeight).length := by omega
  have hlevels := decodeLevels_occursAt texts hs.leafCount hs.leaf 0 hpaths
  rw [hs.paths] at hlevels
  rw [decode, readCompactSize_jsNumber texts hblock hheight]
  simp only [bind, Except.bind, if_neg hlt, hbyte, hlevels]
  simp [STUMP.decoded, henc, Nat.add_assoc, Nat.add_comm 1]

theorem decode_encode_eq {s : STUMP} (hs : s.Encodable) :
    decode texts s.encode = .ok (s.decoded, s.encode.length) := by
  have hblock := hs.blockHeight
  rw [decode_encode_jsNumber texts (by omega)
    ⟨Nat.two_pow_pos 53, hs.treeHeight, hs.paths, hs.leafCount, hs.leaf⟩, jsNumber_of_lt hblock]
  rfl

end

/-- The STUMP without the hashes of its duplicate leaves, which are not encoded. -/
def STUMP.withoutUnusedHashes (s : STUMP) : STUMP :=
  { s with paths := s.paths.map fun level =>
      ⟨level.leaves.map fun leaf => if leaf.duplicate then { leaf with hash := [] } else leaf⟩ }

/-- What the decoders show of a leaf determines it, up to the hash of a duplicate. -/
theorem Leaf.decoded_inj {a b : Leaf} (ha : a.Encodable) (hb : b.Encodable)
    (h : a.decoded = b.decoded) :
    (if a.duplicate then { a with hash := [] } else a) =
      if b.duplicate then { b with hash := [] } else b := by
  obtain ⟨oa, ha', ta, da⟩ := a
  obtain ⟨ob, hb', tb, db⟩ := b
  have hta := ha.flags
  have htb := hb.flags
  simp only [Leaf.decoded, Leaf.flags, DecodedLeaf.mk.injEq] at h hta htb
  obtain ⟨rfl, hflag, hhash⟩ := h
  cases da <;> cases db <;> cases ta <;> cases tb <;>
    simp_all [Hex.encode_injective.eq_iff]

theorem Leaf.map_decoded_inj {as bs : List Leaf} (has : ∀ a ∈ as, a.Encodable)
    (hbs : ∀ b ∈ bs, b.Encodable) (h : as.map Leaf.decoded = bs.map Leaf.decoded) :
    (as.map fun leaf => if leaf.duplicate then { leaf with hash := [] } else leaf) =
      bs.map fun leaf => if leaf.duplicate then { leaf with hash := [] } else leaf := by
  have hlen : as.length = bs.length := by simpa using congrArg List.length h
  refine List.ext_getElem (by simpa using hlen) fun i h1 h2 => ?_
  simp only [List.length_map] at h1 h2
  have hi := List.getElem_of_eq h (i := i) (by simpa using h1)
  simp only [List.getElem_map] at hi ⊢
  exact Leaf.decoded_inj (has _ (List.getElem_mem h1)) (hbs _ (List.getElem_mem h2)) hi

/-- What the decoders show of a STUMP determines it, up to unused hashes. -/
theorem STUMP.decoded_inj {s t : STUMP} (hs : s.Encodable) (ht : t.Encodable)
    (h : s.decoded = t.decoded) : s.withoutUnusedHashes = t.withoutUnusedHashes := by
  obtain ⟨bs, ts, ps⟩ := s
  obtain ⟨bt, tt, pt⟩ := t
  simp only [STUMP.decoded, DecodedBUMP.mk.injEq] at h
  obtain ⟨rfl, rfl, hlevels⟩ := h
  have hlen : ps.length = pt.length := hs.paths.trans ht.paths.symm
  simp only [STUMP.withoutUnusedHashes, STUMP.mk.injEq, true_and]
  refine List.ext_getElem (by simpa using hlen) fun i h1 h2 => ?_
  simp only [List.length_map] at h1 h2
  have hi := List.getElem_of_eq hlevels (i := i) (by simpa using h1)
  simp only [List.getElem_mapIdx, DecodedLevel.mk.injEq, true_and] at hi
  simp only [List.getElem_map, PathLevel.mk.injEq]
  exact Leaf.map_decoded_inj (hs.leaf _ (List.getElem_mem h1)) (ht.leaf _ (List.getElem_mem h2)) hi

/-- **Decoding undoes encoding.**  Both decoders accept the encoding of a STUMP, show its block
height, tree height and, level by level, the offset, flag and hash of its leaves, and stop at the
end of the encoding.  Hence the encoding determines the STUMP, up to the unused hashes of
duplicates. -/
theorem decodeBUMP_encode {s : STUMP} (hs : s.Encodable) :
    decode debugTexts (encode (some s)) = .ok (s.decoded, (encode (some s)).length) ∧
    decode apiTexts (encode (some s)) = .ok (s.decoded, (encode (some s)).length) ∧
    decodeBUMP (encode (some s)) = .ok s.decoded ∧
    stumpDecodeBUMP (encode (some s)) = .ok s.decoded ∧
    ∀ t : STUMP, t.Encodable → encode (some t) = encode (some s) →
      t.withoutUnusedHashes = s.withoutUnusedHashes := by
  have hdebug := decode_encode_eq debugTexts hs
  have hapi := decode_encode_eq apiTexts hs
  refine ⟨hdebug, hapi, ?_, ?_, fun t ht heq => ?_⟩
  · simp only [decodeBUMP, encode, hdebug, Except.map]
  · simp only [stumpDecodeBUMP, encode, hapi, Except.map]
  · have htd := decode_encode_eq debugTexts ht
    simp only [encode] at heq
    rw [heq, hdebug, Except.ok.injEq, Prod.mk.injEq] at htd
    exact STUMP.decoded_inj ht hs htd.1.symm

/-- A txid next to a duplicate, at the boundaries of the CompactSize widths. -/
theorem decodeBUMP_encode_boundaries :
    let s : STUMP := ⟨0xFFFFFFFF, 1,
      [⟨[{ offset := 252, hash := List.replicate 32 7, txID := true },
      { offset := 253, duplicate := true }, { offset := 0xFFFF, hash := List.replicate 32 8 },
      { offset := 2 ^ 53 - 1, duplicate := true }]⟩]⟩
    s.Encodable ∧ stumpDecodeBUMP (encode (some s)) = .ok s.decoded := by
  intro s
  have hs : s.Encodable := by
    refine ⟨by decide, by decide, rfl, by decide, ?_⟩
    simp only [s, forall_eq, List.mem_cons, List.not_mem_nil, or_false]
    rintro leaf (rfl | rfl | rfl | rfl) <;> exact ⟨by decide, by decide, by decide⟩
  exact ⟨hs, (decodeBUMP_encode hs).2.2.2.1⟩

end Stump

end MerkleService
