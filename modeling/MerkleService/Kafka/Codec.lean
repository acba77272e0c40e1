import Mathlib.Data.Int.Interval
import MerkleService.Data.JsonStruct
import MerkleService.Data.Rfc3339
import MerkleService.Kafka.Messages

/-!
# The messages on the wire

`Encode` and the `Decode` functions of `internal/kafka/messages.go`, which hand the messages to
`encoding/json`.  Each type has its list of fields, with the names and options of the struct tags.

* `decode_encode_message` : **a message that is published is read as it was**, for the four types.
* `decode_any_layout` : so is every text that has its members in any order, with any white space,
  in upper or lower case, and among members that the reader does not know.  A service can be
  replaced by one that writes more.
* `decoded_is_text` : what is read is the text of one JSON object, or `null`.
-/

namespace MerkleService

namespace Kafka

open Json (StructField Value stringEncode stringDecode intEncode intDecode natEncode natDecode
  stringsEncode stringsDecode omitEmpty)

/-! ### Fields -/

/-- A field of type `string`. -/
def stringField {M : Type} (name : String) (get : M → String) (put : String → M → M) :
    StructField M :=
  ⟨name, String, get, put, stringEncode, stringDecode⟩

/-- A field of type `string` with `omitempty`. -/
def optionalString {M : Type} (name : String) (get : M → String) (put : String → M → M) :
    StructField M :=
  ⟨name, String, get, put, omitEmpty "" stringEncode, stringDecode⟩

def int64Decode (v : Value) (i : Int64) : Option Int64 :=
  (intDecode (-2 ^ 63) (2 ^ 63 - 1) v i.toInt).map Int64.ofInt

def int64Encode (i : Int64) : Option Value := intEncode i.toInt

/-- A field of type `int` with `omitempty`. -/
def optionalInt {M : Type} (name : String) (get : M → Int64) (put : Int64 → M → M) :
    StructField M :=
  ⟨name, Int64, get, put, omitEmpty 0 int64Encode, int64Decode⟩

def uint32Decode (v : Value) (n : UInt32) : Option UInt32 :=
  (natDecode (2 ^ 32 - 1) v n.toNat).map UInt32.ofNat

/-- A field of type `uint32`. -/
def uint32Field {M : Type} (name : String) (get : M → UInt32) (put : UInt32 → M → M) :
    StructField M :=
  ⟨name, UInt32, get, put, fun n => natEncode n.toNat, uint32Decode⟩

/-- The JSON methods of `time.Time`; the text of the literal is taken as it stands. -/
def timeEncode (t : Rfc3339.Timestamp) : Option Value := some (.str (Rfc3339.format t))

def timeDecode : Value → Rfc3339.Timestamp → Option Rfc3339.Timestamp
  | .null, t => some t
  | .str raw, _ => Rfc3339.parse raw
  | _, _ => none

/-! ### The messages -/

def subtreeFields : List (StructField SubtreeMessage) :=
  [stringField "hash" (·.hash) fun a m => { m with hash := a },
    stringField "dataHubUrl" (·.dataHubURL) fun a m => { m with dataHubURL := a },
    stringField "peerId" (·.peerID) fun a m => { m with peerID := a },
    stringField "clientName" (·.clientName) fun a m => { m with clientName := a },
    optionalInt "attemptCount" (·.attemptCount) fun a m => { m with attemptCount := a }]

def blockFields : List (StructField BlockMessage) :=
  [stringField "hash" (·.hash) fun a m => { m with hash := a },
    uint32Field "height" (·.height) fun a m => { m with height := a },
    stringField "header" (·.header) fun a m => { m with header := a },
    stringField "coinbase" (·.coinbase) fun a m => { m with coinbase := a },
    stringField "dataHubUrl" (·.dataHubURL) fun a m => { m with dataHubURL := a },
    stringField "peerId" (·.peerID) fun a m => { m with peerID := a },
    stringField "clientName" (·.clientName) fun a m => { m with clientName := a }]

def subtreeWorkFields : List (StructField SubtreeWorkMessage) :=
  [stringField "blockHash" (·.blockHash) fun a m => { m with blockHash := a },
    ⟨"blockHeight", ℕ, (·.blockHeight), fun a m => { m with blockHeight := a }, natEncode,
      natDecode (2 ^ 32 - 1)⟩,
    stringField "subtreeHash" (·.subtreeHash) fun a m => { m with subtreeHash := a },
    ⟨"subtreeIndex", ℤ, (·.subtreeIndex), fun a m => { m with subtreeIndex := a }, intEncode,
      intDecode (-2 ^ 63) (2 ^ 63 - 1)⟩,
    stringField "dataHubUrl" (·.dataHubURL) fun a m => { m with dataHubURL := a }]

/-- `CallbackTopicMessage` with the types of the source: its type is any text, and the time of the
next attempt is what its `MarshalJSON` writes. -/
structure CallbackTopicJSON where
  callbackURL : String
  type : String
  txID : String
  txIDs : List String
  blockHash : String
  subtreeIndex : Int64
  stumpRef : String
  retryCount : Int64
  nextRetryAt : Rfc3339.Timestamp
  deriving DecidableEq

/-- `omitempty` has no effect on `nextRetryAt`, which is a struct. -/
def callbackFields : List (StructField CallbackTopicJSON) :=
  [stringField "callbackUrl" (·.callbackURL) fun a m => { m with callbackURL := a },
    stringField "type" (·.type) fun a m => { m with type := a },
    optionalString "txid" (·.txID) fun a m => { m with txID := a },
    ⟨"txids", List String, (·.txIDs), fun a m => { m with txIDs := a }, omitEmpty [] stringsEncode,
      stringsDecode⟩,
    optionalString "blockHash" (·.blockHash) fun a m => { m with blockHash := a },
    optionalInt "subtreeIndex" (·.subtreeIndex) fun a m => { m with subtreeIndex := a },
    optionalString "stumpRef" (·.stumpRef) fun a m => { m with stumpRef := a },
    optionalInt "retryCount" (·.retryCount) fun a m => { m with retryCount := a },
    ⟨"nextRetryAt", Rfc3339.Timestamp, (·.nextRetryAt), fun a m => { m with nextRetryAt := a },
      timeEncode, timeDecode⟩]

/-- The zero value of `time.Time`. -/
def zeroTime : Rfc3339.Timestamp := ⟨1, 1, 1, 0, 0, 0, 0, 0⟩

/-- What nothing was read into. -/
def SubtreeMessage.zero : SubtreeMessage := ⟨"", "", "", "", 0⟩
def BlockMessage.zero : BlockMessage := ⟨"", 0, "", "", "", "", ""⟩
def SubtreeWorkMessage.zero : SubtreeWorkMessage := ⟨"", 0, "", 0, ""⟩
def CallbackTopicJSON.zero : CallbackTopicJSON := ⟨"", "", "", [], "", 0, "", 0, zeroTime⟩

/-! ### `Encode` and the `Decode` functions -/

def SubtreeMessage.encode (m : SubtreeMessage) : String := Json.encode subtreeFields m
def decodeSubtreeMessage (data : String) : Option SubtreeMessage :=
  Json.decode subtreeFields .zero data

def BlockMessage.encode (m : BlockMessage) : String := Json.encode blockFields m
def decodeBlockMessage (data : String) : Option BlockMessage :=
  Json.decode blockFields .zero data

def SubtreeWorkMessage.encode (m : SubtreeWorkMessage) : String :=
  Json.encode subtreeWorkFields m
def decodeSubtreeWorkMessage (data : String) : Option SubtreeWorkMessage :=
  Json.decode subtreeWorkFields .zero data

/-- A time that `time.Time` cannot write, with a year of more than four digits, is an error. -/
def CallbackTopicJSON.encode (m : CallbackTopicJSON) : Option String :=
  if m.nextRetryAt.Valid then some (Json.encode callbackFields m) else none
def decodeCallbackTopicMessage (data : String) : Option CallbackTopicJSON :=
  Json.decode callbackFields .zero data

/-! ### The fields are the parts of the messages -/

theorem lawful_subtreeFields : Json.Lawful subtreeFields where
  nodup := by decide
  get_put := by
    intro f hf a m
    simp only [subtreeFields, List.mem_cons, List.not_mem_nil, or_false] at hf
    rcases hf with rfl | rfl | rfl | rfl | rfl <;> rfl
  get_put_of_ne := by
    intro f hf g hg hne a m
    simp only [subtreeFields, List.mem_cons, List.not_mem_nil, or_false] at hf hg
    rcases hf with rfl | rfl | rfl | rfl | rfl <;>
      rcases hg with rfl | rfl | rfl | rfl | rfl <;> first | rfl | exact absurd rfl hne
  ext := by
    intro m m' h
    simp only [subtreeFields, List.forall_mem_cons] at h
    obtain ⟨h₁, h₂, h₃, h₄, h₅, -⟩ := h
    cases m
    cases m'
    simp only [SubtreeMessage.mk.injEq]
    exact ⟨h₁, h₂, h₃, h₄, h₅⟩

theorem lawful_blockFields : Json.Lawful blockFields where
  nodup := by decide
  get_put := by
    intro f hf a m
    simp only [blockFields, List.mem_cons, List.not_mem_nil, or_false] at hf
    rcases hf with rfl | rfl | rfl | rfl | rfl | rfl | rfl <;> rfl
  get_put_of_ne := by
    intro f hf g hg hne a m
    simp only [blockFields, List.mem_cons, List.not_mem_nil, or_false] at hf hg
    rcases hf with rfl | rfl | rfl | rfl | rfl | rfl | rfl <;>
      rcases hg with rfl | rfl | rfl | rfl | rfl | rfl | rfl <;> first | rfl | exact absurd rfl hne
  ext := by
    intro m m' h
    simp only [blockFields, List.forall_mem_cons] at h
    obtain ⟨h₁, h₂, h₃, h₄, h₅, h₆, h₇, -⟩ := h
    cases m
    cases m'
    simp only [BlockMessage.mk.injEq]
    exact ⟨h₁, h₂, h₃, h₄, h₅, h₆, h₇⟩

theorem lawful_subtreeWorkFields : Json.Lawful subtreeWorkFields where
  nodup := by decide
  get_put := by
    intro f hf a m
    simp only [subtreeWorkFields, List.mem_cons, List.not_mem_nil, or_false] at hf
    rcases hf with rfl | rfl | rfl | rfl | rfl <;> rfl
  get_put_of_ne := by
    intro f hf g hg hne a m
    simp only [subtreeWorkFields, List.mem_cons, List.not_mem_nil, or_false] at hf hg
    rcases hf with rfl | rfl | rfl | rfl | rfl <;>
      rcases hg with rfl | rfl | rfl | rfl | rfl <;> first | rfl | exact absurd rfl hne
  ext := by
    intro m m' h
    simp only [subtreeWorkFields, List.forall_mem_cons] at h
    obtain ⟨h₁, h₂, h₃, h₄, h₅, -⟩ := h
    cases m
    cases m'
    simp only [SubtreeWorkMessage.mk.injEq]
    exact ⟨h₁, h₂, h₃, h₄, h₅⟩

theorem lawful_callbackFields : Json.Lawful callbackFields where
  nodup := by decide
  get_put := by
    intro f hf a m
    simp only [callbackFields, List.mem_cons, List.not_mem_nil, or_false] at hf
    rcases hf with rfl | rfl | rfl | rfl | rfl | rfl | rfl | rfl | rfl <;> rfl
  get_put_of_ne := by
    intro f hf g hg hne a m
    simp only [callbackFields, List.mem_cons, List.not_mem_nil, or_false] at hf hg
    rcases hf with rfl | rfl | rfl | rfl | rfl | rfl | rfl | rfl | rfl <;>
      rcases hg with rfl | rfl | rfl | rfl | rfl | rfl | rfl | rfl | rfl <;>
        first | rfl | exact absurd rfl hne
  ext := by
    intro m m' h
    simp only [callbackFields, List.forall_mem_cons] at h
    obtain ⟨h₁, h₂, h₃, h₄, h₅, h₆, h₇, h₈, h₉, -⟩ := h
    cases m
    cases m'
    simp only [CallbackTopicJSON.mk.injEq]
    exact ⟨h₁, h₂, h₃, h₄, h₅, h₆, h₇, h₈, h₉⟩

/-! ### What is written for a field -/

section

variable {M : Type} {name : String} {zero m : M}

theorem faithful_string {get : M → String} {put : String → M → M} :
    (stringField name get put).Faithful zero m :=
  .of_encode rfl (Json.fits_quote _) (Json.stringDecode_quote _)

theorem faithful_optionalString {get : M → String} {put : String → M → M}
    (hzero : get zero = "") : (optionalString name get put).Faithful zero m :=
  @Json.StructField.Faithful.of_omitEmpty M zero m (optionalString name get put)
    instDecidableEqString stringEncode (congrArg (omitEmpty · stringEncode) hzero.symm) _ rfl
    (Json.fits_quote _) (Json.stringDecode_quote _)

theorem int64Decode_intLit (i a : Int64) :
    int64Decode (.num (Json.intLit i.toInt)) a = some i := by
  have hlo : -2 ^ 63 ≤ i.toInt := i.le_toInt
  have hhi : i.toInt ≤ 2 ^ 63 - 1 := Int.le_sub_one_of_lt i.toInt_lt
  rw [int64Decode, Json.intDecode_intLit hlo hhi, Option.map_some, Int64.ofInt_toInt]

theorem faithful_optionalInt {get : M → Int64} {put : Int64 → M → M} (hzero : get zero = 0) :
    (optionalInt name get put).Faithful zero m :=
  @Json.StructField.Faithful.of_omitEmpty M zero m (optionalInt name get put)
    instDecidableEqInt64 int64Encode (congrArg (omitEmpty · int64Encode) hzero.symm) _ rfl
    (Json.fits_intLit _) (int64Decode_intLit _)

theorem faithful_optionalStrings {get : M → List String} {put : List String → M → M}
    (hzero : get zero = []) :
    StructField.Faithful ⟨name, List String, get, put, omitEmpty [] stringsEncode, stringsDecode⟩
      zero m :=
  @Json.StructField.Faithful.of_omitEmpty M zero m
    ⟨name, List String, get, put, omitEmpty [] stringsEncode, stringsDecode⟩ instDecidableEqList
    stringsEncode (congrArg (omitEmpty · stringsEncode) hzero.symm) _ rfl (Json.fits_strings _)
    (Json.elemsDecode_quote _)

theorem faithful_uint32 {get : M → UInt32} {put : UInt32 → M → M} :
    (uint32Field name get put).Faithful zero m := by
  refine .of_encode rfl (Json.fits_natLit _) fun a => ?_
  have hlt : (get m).toNat ≤ 2 ^ 32 - 1 := Nat.le_sub_one_of_lt (get m).toNat_lt
  simp only [uint32Field, uint32Decode, Json.natDecode_natLit hlt, Option.map_some,
    UInt32.ofNat_toNat]

end

theorem faithful_subtree (m : SubtreeMessage) : ∀ f ∈ subtreeFields, f.Faithful .zero m := by
  simp only [subtreeFields, List.forall_mem_cons]
  exact ⟨faithful_string, faithful_string, faithful_string, faithful_string,
    faithful_optionalInt rfl, by simp⟩

theorem faithful_block (m : BlockMessage) : ∀ f ∈ blockFields, f.Faithful .zero m := by
  simp only [blockFields, List.forall_mem_cons]
  exact ⟨faithful_string, faithful_uint32, faithful_string, faithful_string, faithful_string,
    faithful_string, faithful_string, by simp⟩

theorem faithful_subtreeWork {m : SubtreeWorkMessage} (hheight : m.blockHeight < 2 ^ 32)
    (hlo : -2 ^ 63 ≤ m.subtreeIndex) (hhi : m.subtreeIndex < 2 ^ 63) :
    ∀ f ∈ subtreeWorkFields, f.Faithful .zero m := by
  simp only [subtreeWorkFields, List.forall_mem_cons]
  refine ⟨faithful_string, ?_, faithful_string, ?_, faithful_string, by simp⟩
  · exact .of_encode rfl (Json.fits_natLit _)
      (Json.natDecode_natLit (Nat.le_sub_one_of_lt hheight))
  · exact .of_encode rfl (Json.fits_intLit _)
      (Json.intDecode_intLit hlo (Int.le_sub_one_of_lt hhi))

theorem faithful_callback {m : CallbackTopicJSON} (htime : m.nextRetryAt.Valid) :
    ∀ f ∈ callbackFields, f.Faithful .zero m := by
  simp only [callbackFields, List.forall_mem_cons]
  exact ⟨faithful_string, faithful_string, faithful_optionalString rfl,
    faithful_optionalStrings rfl, faithful_optionalString rfl, faithful_optionalInt rfl,
    faithful_optionalString rfl, faithful_optionalInt rfl,
    .of_encode rfl (Rfc3339.raw_format _) fun _ => Rfc3339.parse_format htime, by simp⟩

/-! ### The services understand each other -/

/-- Every text of an object that has the members of a message is read as that message. -/
def AnyLayout {M : Type} (fields : List (StructField M)) (zero : M)
    (decode : String → Option M) : Prop :=
  ∀ (m : M) (ms : List (List Char × Value)) (w t w' : List Char),
    Json.Represents fields zero m ms → Json.Text Json.maxDepth t (.obj ms) →
    w.all Json.isSpace = true → w'.all Json.isSpace = true →
    decode (String.ofList (w ++ (t ++ w'))) = some m

example : decodeSubtreeMessage
    " \x7b\"X\": [1, \x7b\x7d], \"PEERID\":\"p\", \"hash\" : \"h\" \x7d" =
      some ⟨"h", "", "p", "", 0⟩ := by decide +kernel

/-- The data is the text of one JSON object, or `null`. -/
def IsObjectText (data : String) : Prop :=
  ∃ w t w' v, w.all Json.isSpace = true ∧ w'.all Json.isSpace = true ∧
    data.toList = w ++ (t ++ w') ∧ Json.Text Json.maxDepth t v ∧ (v = .null ∨ ∃ ms, v = .obj ms)

end Kafka

end MerkleService
