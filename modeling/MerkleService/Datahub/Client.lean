import MerkleService.Data.Hex

/-!
# Subtree data as the DataHub sends it

The raw data of a subtree is the concatenation of the 32-byte hashes of its transactions
(`internal/datahub/client.go`).  Its txids are displayed, as all hashes of the chain, as the
hexadecimal text of the reversed bytes (`chainhash.Hash.String`).
-/

namespace MerkleService

namespace Datahub

/-- `chainhash.HashSize`. -/
def hashSize : ℕ := 32

/-- `chainhash.Hash.String`. -/
def hashString (h : List UInt8) : String := Hex.encode h.reverse

/-- The slices `data[i*HashSize:(i+1)*HashSize]`. -/
def records (data : List UInt8) : List (List UInt8) :=
  (List.range (data.length / hashSize)).map fun i => (data.drop (i * hashSize)).take hashSize

/-- The check and the slicing that `ParseRawNodes` and `ParseRawTxids` share. -/
def parseRaw {α : Type} (f : List UInt8 → α) (data : List UInt8) : Except String (List α) :=
  if data.length % hashSize ≠ 0 then
    .error s!"invalid subtree data length {data.length}: not a multiple of {hashSize}"
  else .ok ((records data).map f)

/-- `ParseRawNodes`; of a node only its hash is used. -/
def parseRawNodes (data : List UInt8) : Except String (List (List UInt8)) := parseRaw id data

/-- `ParseRawTxids`. -/
def parseRawTxids (data : List UInt8) : Except String (List String) := parseRaw hashString data

theorem length_of_mem_records {data h : List UInt8} (hmem : h ∈ records data) :
    h.length = hashSize := by
  obtain ⟨i, hi, rfl⟩ := List.mem_map.1 hmem
  have hlt := List.mem_range.1 hi
  simp only [hashSize] at hlt ⊢
  rw [List.length_take, List.length_drop]
  omega

theorem parseRawNodes_ok {data : List UInt8} {nodes : List (List UInt8)}
    (h : parseRawNodes data = .ok nodes) : nodes = records data := by
  unfold parseRawNodes parseRaw at h
  split_ifs at h
  simpa using h.symm

end Datahub

end MerkleService
