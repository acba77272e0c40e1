import MerkleService.Data.Hex

/-!
# Messages and partitions of the Kafka topics

The messages that the services exchange (`internal/kafka/messages.go`) and the way the producer
chooses a partition (`internal/kafka/producer.go`): `PublishWithHashKey` hands sarama's hash
partitioner the hexadecimal text of the first eight bytes of the SHA-256 of its key.
-/

namespace MerkleService

namespace Kafka

/-- `CallbackType`. -/
inductive CallbackType where
  | seenOnNetwork
  | seenMultipleNodes
  | stump
  | blockProcessed
  deriving DecidableEq, Repr

/-- The texts of the constants. -/
def CallbackType.text : CallbackType → String
  | seenOnNetwork => "SEEN_ON_NETWORK"
  | seenMultipleNodes => "SEEN_MULTIPLE_NODES"
  | stump => "STUMP"
  | blockProcessed => "BLOCK_PROCESSED"

/-- `SubtreeMessage`. -/
structure SubtreeMessage where
  hash : String
  dataHubURL : String
  peerID : String := ""
  clientName : String := ""
  attemptCount : Int64 := 0
  deriving DecidableEq, Repr

/-- `BlockMessage`. -/
structure BlockMessage where
  hash : String
  height : UInt32
  header : String
  coinbase : String
  dataHubURL : String
  peerID : String := ""
  clientName : String := ""
  deriving DecidableEq, Repr

/-- `CallbackTopicMessage`.  `nextRetryAt` is in nanoseconds, and `none` for Go's zero time. -/
structure CallbackTopicMessage where
  callbackURL : String
  type : CallbackType
  txID : String := ""
  txIDs : List String := []
  blockHash : String := ""
  subtreeIndex : ℤ := 0
  stumpRef : String := ""
  retryCount : Int64 := 0
  nextRetryAt : Option ℕ := none
  deriving DecidableEq, Repr

/-- `SubtreeWorkMessage`. -/
structure SubtreeWorkMessage where
  blockHash : String
  blockHeight : ℕ
  subtreeHash : String
  subtreeIndex : ℤ
  dataHubURL : String
  deriving DecidableEq, Repr

theorem toInt_succ {a : Int64} (h : a ≠ Int64.maxValue) : (a + 1).toInt = a.toInt + 1 := by
  have hle := Int64.toInt_le a
  have hge := Int64.minValue_le_toInt a
  rw [Int64.toInt_maxValue] at hle
  rw [Int64.toInt_minValue] at hge
  have hne : a.toInt ≠ 2 ^ 63 - 1 := fun heq => h (Int64.toInt_inj.1 heq)
  have hone : (1 : Int64).toInt = 1 := rfl
  rw [Int64.toInt_add, hone]
  refine Int.bmod_eq_of_le ?_ ?_ <;> norm_num <;> omega

/-- What a producer takes from outside: SHA-256 and sarama's hash partitioner for the topic. -/
structure Producer where
  sha256 : String → List UInt8
  partitioner : String → ℕ

/-- `HashPartitionKey`, which is also the key computed inside `PublishWithHashKey`. -/
def Producer.hashPartitionKey (p : Producer) (s : String) : String :=
  Hex.encode ((p.sha256 s).take 8)

/-- The partition to which `PublishWithHashKey key` sends. -/
def Producer.partitionOf (p : Producer) (key : String) : ℕ :=
  p.partitioner (p.hashPartitionKey key)

/-- The contents of a topic, partition by partition, in order. -/
abbrev Topic (α : Type) := ℕ → List α

/-- A publish that succeeds: the message is appended to the partition of its key. -/
def Producer.publishWithHashKey {α : Type} (p : Producer) (t : Topic α) (key : String) (m : α) :
    Topic α :=
  Function.update t (p.partitionOf key) (t (p.partitionOf key) ++ [m])

end Kafka

end MerkleService
