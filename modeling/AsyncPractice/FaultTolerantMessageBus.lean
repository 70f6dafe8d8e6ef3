import AsyncPractice.MessageBus
import AsyncPractice.Runs

/- FaultTolerantMessageBus of solution18_message_bus.go: ConsumeWithRetry, the committed offsets and
the dead letter queue. -/
namespace AsyncPractice.FaultTolerantMessageBus

open MessageBus

variable {O : Type}

/-- With the messages for which an attempt of the handler returned nil. -/
structure State (O : Type) where
  mb : PartitionedMessageBus O
  dlq : List (Message O)
  handled : List (Message O)

/-- The results of the handler: whether the attempt with this number returns nil for the
message. -/
abbrev Attempts (O : Type) := Message O → Nat → Bool

def maxRetries : Nat := 3

def commitOffset (mb : PartitionedMessageBus O) (groupID topicName : String)
    (partitionID offset : Nat) : PartitionedMessageBus O :=
  let topicOffsets := (mb.offsets.lookup groupID).getD ∅
  let partitionOffsets := (topicOffsets.lookup topicName).getD ∅
  let topicOffsets := topicOffsets.insert topicName (partitionOffsets.insert partitionID offset)
  { mb with offsets := mb.offsets.insert groupID topicOffsets }

def lastOffset (mb : PartitionedMessageBus O) (groupID topicName : String) (partitionID : Nat) :
    Nat :=
  match mb.offsets.lookup groupID with
  | none => 0
  | some topicOffsets =>
    match topicOffsets.lookup topicName with
    | none => 0
    | some partitionOffsets => (partitionOffsets.lookup partitionID).getD 0

/-- The loop over the attempts for one message, of which some number remain. -/
def retry (groupID topicName : String) (partitionID : Nat) (attempts : Attempts O)
    (msg : Message O) (s : State O) : Nat → State O
  | 0 => s
  | remaining + 1 =>
    if attempts msg (maxRetries - (remaining + 1)) then
      { s with
        mb := commitOffset s.mb groupID topicName partitionID (msg.offset + 1)
        handled := s.handled ++ [msg] }
    else if remaining = 0 then { s with dlq := s.dlq ++ [msg] }
    else retry groupID topicName partitionID attempts msg s remaining

def consumePartition (groupID : String) (attempts : Attempts O) (s : State O)
    (topicName : String) (partitionID : Nat) : Except String (State O) :=
  match (s.mb.topics.lookup topicName).bind (·.partitions[partitionID]?) with
  | none => .error "invalid topic or partition"
  | some partition =>
    let messages := partition.messages.filter fun msg =>
      lastOffset s.mb groupID topicName partitionID ≤ msg.offset
    .ok (messages.foldl
      (fun s msg => retry groupID topicName partitionID attempts msg s maxRetries) s)

/-- The partitions of the topic that are assigned to the consumer. -/
def assigned (group : ConsumerGroup) (consumerID topicName : String) : Finset Nat :=
  match group.assignments.lookup topicName with
  | none => ∅
  | some partitions => partitions.keys.filter fun part => partitions.lookup part = some consumerID

/-- An order in which the two loops may visit the assigned partitions. -/
def Visits (group : ConsumerGroup) (consumerID : String) (order : List (String × List Nat)) :
    Prop :=
  GoMap.Ranges (order.map Prod.fst) group.assignments ∧
    ∀ visit ∈ order, visit.2.Nodup ∧ visit.2.toFinset = assigned group consumerID visit.1

instance (group : ConsumerGroup) (consumerID : String) (order : List (String × List Nat)) :
    Decidable (Visits group consumerID order) :=
  inferInstanceAs (Decidable (_ ∧ ∀ visit ∈ order, _))

/-- An error is only logged. -/
def consumeOrLog (groupID : String) (attempts : Attempts O) (s : State O) (topicName : String)
    (partitionID : Nat) : State O :=
  match consumePartition groupID attempts s topicName partitionID with
  | .error _ => s
  | .ok s => s

def consumeAssigned (groupID : String) (attempts : Attempts O) (s : State O)
    (order : List (String × List Nat)) : State O :=
  order.foldl (fun s visit => visit.2.foldl (fun s partitionID =>
    consumeOrLog groupID attempts s visit.1 partitionID) s) s

def consumeWithRetry (groupID consumerID : String) (attempts : Attempts O)
    (order : List (String × List Nat)) (s : State O) : Except String (State O) :=
  match s.mb.groups.lookup groupID with
  | none => .error ("consumer group " ++ groupID ++ " not found")
  | some group =>
    match group.consumers.lookup consumerID with
    | none => .error ("consumer " ++ consumerID ++ " not found")
    | some _ => .ok (consumeAssigned groupID attempts s order)

inductive Op (O : Type)
  | send (request : Request O) (reading : Reading)
  | consume (order : List (String × List Nat)) (attempts : Attempts O)

/-- The calls of one consumer, and Sends in between. -/
def step (groupID consumerID : String) (s : State O) : Op O → Option (State O)
  | .send request reading =>
    (send s.mb request reading).map fun
      | .error _ => s
      | .ok mb => { s with mb }
  | .consume order attempts =>
    if ∀ group ∈ s.mb.groups.lookup groupID, Visits group consumerID order then
      match consumeWithRetry groupID consumerID attempts order s with
      | .error _ => some s
      | .ok s => some s
    else none

end AsyncPractice.FaultTolerantMessageBus
