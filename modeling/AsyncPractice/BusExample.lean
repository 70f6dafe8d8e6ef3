import AsyncPractice.MessageBus
import AsyncPractice.Runs
import AsyncPractice.SliceSort

/- MessageBusExample of message_bus_example.go: topics of partitions, consumer groups, and the
offsets a group has committed, which are by partition alone. Publish and the calls of
consumePartition are one step each. -/
namespace AsyncPractice.BusExample

open MessageBus

structure Message where
  id : String
  topic : String
  partition : Nat
  offset : Nat
  key : Bytes
  value : Bytes
  headers : GoMap String String
  timestamp : Int
  attempts : Nat
  deriving DecidableEq

structure Partition where
  id : Nat
  messages : List Message
  offset : Nat

def Partition.append (partition : Partition) (message : Message) : Partition :=
  { partition with messages := partition.messages ++ [message], offset := partition.offset + 1 }

structure Topic where
  name : String
  partitions : List Partition

structure Consumer where
  id : String
  groupID : String
  topics : List String
  active : Bool
  deriving DecidableEq

structure ConsumerGroup where
  id : String
  consumers : GoMap String Consumer
  assignments : GoMap Nat String
  rebalanceVersion : Nat
  deriving DecidableEq

/-- `offsets` leads from a group and a partition to the offset, `dlq` are the messages of the dead
letter queue. -/
structure MessageBusExample where
  topics : GoMap String Topic
  consumerGroups : GoMap String ConsumerGroup
  offsets : GoMap String (GoMap Nat Nat)
  dlq : List Message

def newMessageBusExample : MessageBusExample := ⟨∅, ∅, ∅, []⟩

variable (mb : MessageBusExample)

def createTopic (name : String) (numPartitions : Nat) : Except String MessageBusExample :=
  if (mb.topics.lookup name).isSome then .error ("topic " ++ name ++ " already exists")
  else
    let partitions := (List.range numPartitions).map fun i => ⟨i, [], 0⟩
    .ok { mb with topics := mb.topics.insert name ⟨name, partitions⟩ }

/-- `nanos` is what UnixNano reads. -/
def selectPartition (key : Bytes) (numPartitions : Nat) (nanos : Int) : Option Int :=
  if numPartitions = 0 then none
  else if key.length = 0 then some (nanos.tmod numPartitions)
  else some ((fnv32a key).toNat % numPartitions : Nat)

/-- The bus after a Publish, with the message it has appended. An index out of range panics. -/
def publish (topicName : String) (key value : Bytes) (headers : GoMap String String)
    (reading : Reading) : Option (Except String (MessageBusExample × Message)) :=
  match mb.topics.lookup topicName with
  | none => some (.error ("topic " ++ topicName ++ " not found"))
  | some topic =>
    (selectPartition key topic.partitions.length reading.nanos).bind fun index =>
      if index < 0 then none
      else
        let partitionID := index.toNat
        topic.partitions[partitionID]?.map fun partition =>
          let message : Message :=
            { id := messageID topicName partitionID partition.offset
              topic := topicName
              partition := partitionID
              offset := partition.offset
              key, value, headers
              timestamp := reading.timestamp
              attempts := 0 }
          let partitions := topic.partitions.set partitionID (partition.append message)
          let topics := mb.topics.insert topicName { topic with partitions }
          .ok ({ mb with topics }, message)

def createConsumerGroup (groupID : String) : Except String MessageBusExample :=
  if (mb.consumerGroups.lookup groupID).isSome then
    .error ("consumer group " ++ groupID ++ " already exists")
  else
    .ok { mb with
      consumerGroups := mb.consumerGroups.insert groupID ⟨groupID, ∅, ∅, 0⟩
      offsets := mb.offsets.insert groupID ∅ }

/-- The handler is no part of the consumer here: every call of it has its outcome from the run. -/
def joinGroup (groupID consumerID : String) (topics : List String) :
    Except String MessageBusExample :=
  match mb.consumerGroups.lookup groupID with
  | none => .error ("consumer group " ++ groupID ++ " not found")
  | some group =>
    let consumers := group.consumers.insert consumerID ⟨consumerID, groupID, topics, true⟩
    .ok { mb with
      consumerGroups := mb.consumerGroups.insert groupID { group with consumers } }

/-- The keys of topicsMap: what the active consumers subscribe to. -/
def ConsumerGroup.topicsMap (group : ConsumerGroup) : Finset String :=
  group.consumers.keys.biUnion fun id =>
    match group.consumers.lookup id with
    | some consumer => if consumer.active then consumer.topics.toFinset else ∅
    | none => ∅

/-- Round-robin, the consumer of a partition that comes up several times being the last one. -/
def assign (activeConsumers : List String) (allPartitions : List Nat) : GoMap Nat String :=
  allPartitions.zipIdx.foldl (fun assignments (partition, i) =>
    assignments.insert partition ((activeConsumers[i % activeConsumers.length]?).getD "")) ∅

/-- The loops visit the consumers in the order `ids` and topicsMap in the order `names`. -/
def rebalance (groupID : String) (ids names : List String) : MessageBusExample :=
  match mb.consumerGroups.lookup groupID with
  | none => mb
  | some group =>
    let allPartitions := names.flatMap fun name =>
      match mb.topics.lookup name with
      | some topic => List.range topic.partitions.length
      | none => []
    let activeConsumers := ids.filter fun id => (group.consumers.lookup id).any Consumer.active
    if activeConsumers = [] then mb
    else
      let group := { group with
        assignments := assign activeConsumers allPartitions
        rebalanceVersion := group.rebalanceVersion + 1 }
      { mb with consumerGroups := mb.consumerGroups.insert groupID group }

/-- The orders in which the loops of a rebalance may go. -/
def Rebalances (groupID : String) (ids names : List String) : Prop :=
  ∀ group ∈ mb.consumerGroups.lookup groupID,
    GoMap.Ranges ids group.consumers ∧ names.Nodup ∧ names.toFinset = group.topicsMap

instance (groupID : String) (ids names : List String) :
    Decidable (Rebalances mb groupID ids names) :=
  inferInstanceAs (Decidable (∀ group ∈ mb.consumerGroups.lookup groupID, _ ∧ _ ∧ _))

/-- The parameter is a copy, so it is the copy that counts the attempt. -/
def handleFailedMessage (msg : Message) : MessageBusExample :=
  let msg := { msg with attempts := msg.attempts + 1 }
  if msg.attempts ≥ 3 then { mb with dlq := mb.dlq ++ [msg] } else mb

def commitOffset (groupID : String) (partition offset : Nat) : MessageBusExample :=
  let offsets := (mb.offsets.lookup groupID).getD ∅
  { mb with offsets := mb.offsets.insert groupID (offsets.insert partition offset) }

/-- The offset a group has committed for a partition. -/
def committed (groupID : String) (partitionID : Nat) : Nat :=
  (((mb.offsets.lookup groupID).getD ∅).lookup partitionID).getD 0

def partitionOf (topicName : String) (partitionID : Nat) : Option Partition :=
  (mb.topics.lookup topicName).bind fun topic => topic.partitions[partitionID]?

def messagesOf (topicName : String) (partitionID : Nat) : List Message :=
  ((partitionOf mb topicName partitionID).map Partition.messages).getD []

/-- The keys of the map of assignments that consumePartitions makes for a consumer. -/
def ConsumerGroup.assignedTo (group : ConsumerGroup) (consumer : Consumer) : Finset Nat :=
  group.assignments.keys.filter fun partitionID =>
    group.assignments.lookup partitionID = some consumer.id

/-- The bus with the messages published, and those that a group has handled successfully, which only
observe. -/
structure State where
  bus : MessageBusExample
  published : List Message
  handled : List (String × Message)

def start : State := ⟨newMessageBusExample, [], []⟩

variable (s : State) (groupID : String) (outcome : Message → Bool)

/-- One round of the loop over the messages read; `outcome` says for which of them processMessage
returns no error. -/
def process (partitionID : Nat) (s : State) (msg : Message) : State :=
  if outcome msg then
    { s with
      bus := commitOffset s.bus groupID partitionID (msg.offset + 1)
      handled := s.handled ++ [(groupID, msg)] }
  else { s with bus := handleFailedMessage s.bus msg }

def consumePartition (topicName : String) (partitionID : Nat) : State :=
  match s.bus.topics.lookup topicName with
  | none => s
  | some topic =>
    match topic.partitions[partitionID]? with
    | none => s
    | some partition =>
      let lastOffset := committed s.bus groupID partitionID
      let messages := partition.messages.filter fun msg => msg.offset ≥ lastOffset
      messages.foldl (process groupID outcome partitionID) s

/-- The loop over the assignments to the consumer goes in the order `order`. -/
def consumePartitions (group : ConsumerGroup) (consumer : Consumer) (order : List Nat) : State :=
  order.foldl (fun s partitionID =>
    consumer.topics.foldl (fun s topicName =>
      consumePartition s group.id outcome topicName partitionID) s) s

def unread (topicName : String) (partitionID : Nat) : List Message :=
  (messagesOf s.bus topicName partitionID).filter fun msg =>
    msg.offset ≥ committed s.bus groupID partitionID

theorem consumePartition_eq (topicName partitionID) :
    consumePartition s groupID outcome topicName partitionID =
      (unread s groupID topicName partitionID).foldl (process groupID outcome partitionID) s := by
  unfold consumePartition unread messagesOf partitionOf
  cases s.bus.topics.lookup topicName with
  | none => rfl
  | some topic =>
    dsimp only [Option.bind_some]
    cases topic.partitions[partitionID]? <;> rfl

inductive Event
  | createTopic (name : String) (numPartitions : Nat)
  | publish (topicName : String) (key value : Bytes) (headers : GoMap String String)
      (reading : Reading)
  | createConsumerGroup (groupID : String)
  | joinGroup (groupID consumerID : String) (topics : List String)
  | rebalance (groupID : String) (ids names : List String)
  | consumePartition (groupID : String) (outcome : Message → Bool) (topicName : String)
      (partitionID : Nat)

/-- The state with the bus a call leaves, which is the old one after an error. -/
def State.after (s : State) : Except String MessageBusExample → State
  | .ok bus => { s with bus }
  | .error _ => s

/-- Only Consume leads to consumePartition, once it has found the group. -/
def step (s : State) : Event → Option State
  | .createTopic name numPartitions => some (s.after (createTopic s.bus name numPartitions))
  | .publish topicName key value headers reading =>
    (publish s.bus topicName key value headers reading).map fun
      | .ok (bus, message) => { s with bus, published := s.published ++ [message] }
      | .error _ => s
  | .createConsumerGroup groupID => some (s.after (createConsumerGroup s.bus groupID))
  | .joinGroup groupID consumerID topics =>
    some (s.after (joinGroup s.bus groupID consumerID topics))
  | .rebalance groupID ids names =>
    if Rebalances s.bus groupID ids names then
      some { s with bus := rebalance s.bus groupID ids names }
    else none
  | .consumePartition groupID outcome topicName partitionID =>
    if (s.bus.consumerGroups.lookup groupID).isSome then
      some (consumePartition s groupID outcome topicName partitionID)
    else none

/-- The index of the first message to keep. When there is none the loop leaves it at 0. -/
def cutoffIndex (messages : List Message) (cutoff : Int) : Nat :=
  (messages.findIdx? fun msg => cutoff < msg.timestamp).getD 0

def Partition.removeOld (cutoff : Int) (partition : Partition) : Partition :=
  let cutoffIndex := cutoffIndex partition.messages cutoff
  if 0 < cutoffIndex then { partition with messages := partition.messages.drop cutoffIndex }
  else partition

/-- One pass; `cutoff` is the time of the pass less the retention period of the topic. -/
def enforceRetention (topicName : String) (cutoff : Int) : MessageBusExample :=
  match mb.topics.lookup topicName with
  | none => mb
  | some topic =>
    let partitions := topic.partitions.map (Partition.removeOld cutoff)
    { mb with topics := mb.topics.insert topicName { topic with partitions } }

theorem messages_removeOld (cutoff) (partition : Partition) :
    (partition.removeOld cutoff).messages =
      if ∃ msg ∈ partition.messages, cutoff < msg.timestamp then
        partition.messages.dropWhile fun msg => !decide (cutoff < msg.timestamp)
      else partition.messages := by
  have cut : (partition.removeOld cutoff).messages =
      partition.messages.drop (cutoffIndex partition.messages cutoff) := by
    unfold Partition.removeOld
    dsimp only
    split
    · rfl
    next zero =>
      rw [Nat.eq_zero_of_not_pos zero, List.drop_zero]
  rw [cut, cutoffIndex]
  split
  next kept =>
    have hit : partition.messages.findIdx? (fun msg => cutoff < msg.timestamp) =
        some (partition.messages.findIdx fun msg => cutoff < msg.timestamp) :=
      List.findIdx?_eq_some_of_exists (by simpa using kept)
    rw [hit, List.dropWhile_eq_drop_findIdx_not]
    simp
  next expired =>
    rw [List.findIdx?_eq_none_iff.mpr (by simpa using expired)]
    rfl

theorem partitionOf_enforceRetention {mb topicName i partition}
    (found : partitionOf mb topicName i = some partition) (cutoff) :
    partitionOf (enforceRetention mb topicName cutoff) topicName i =
      some (partition.removeOld cutoff) := by
  obtain ⟨topic, stored, hit⟩ := Option.bind_eq_some_iff.mp found
  simp [partitionOf, enforceRetention, stored, hit]

/-- A pass over a partition in the order of publication leaves the messages after the cutoff, unless
all of the messages there are expired. -/
theorem enforceRetention_exact_iff {mb : MessageBusExample} {topicName : String} {i : Nat}
    {partition : Partition} (found : partitionOf mb topicName i = some partition)
    (ordered : partition.messages.Pairwise fun a b => a.timestamp ≤ b.timestamp) (cutoff : Int) :
    ∃ kept, partitionOf (enforceRetention mb topicName cutoff) topicName i = some kept ∧
      (kept.messages = partition.messages.filter (fun msg => cutoff < msg.timestamp) ↔
        partition.messages = [] ∨ ∃ msg ∈ partition.messages, cutoff < msg.timestamp) := by
  refine ⟨_, partitionOf_enforceRetention found cutoff, ?_⟩
  rw [messages_removeOld]
  split
  · rename_i kept
    refine ⟨fun _ => Or.inr kept, fun _ => ?_⟩
    have sorted : partition.messages.Pairwise fun a b =>
        (!decide (cutoff < b.timestamp)) = true → (!decide (cutoff < a.timestamp)) = true := by
      refine ordered.imp fun {a b} before => ?_
      simp only [Bool.not_eq_true', decide_eq_false_iff_not]
      omega
    rw [SliceSort.dropWhile_eq_filter_iff.mpr sorted]
    simp only [Bool.not_not]
  · rename_i expired
    have none : partition.messages.filter (fun msg => cutoff < msg.timestamp) = [] := by
      simpa [List.filter_eq_nil_iff] using expired
    rw [none, or_iff_left expired]

def publishedAt (times : List Int) : Option State :=
  Runs.exec step start (.createTopic "orders" 1 ::
    times.map fun now => .publish "orders" [] [] ∅ ⟨0, now⟩)

theorem enforceRetention_keeps_last :
    ∃ s partition kept, publishedAt [1, 2, 3] = some s ∧
      partitionOf s.bus "orders" 0 = some partition ∧
      partitionOf (enforceRetention s.bus "orders" 2) "orders" 0 = some kept ∧
      kept.messages.map (·.timestamp) = [3] := by
  obtain ⟨s, partition, run, found, ordered, later, filtered⟩ : ∃ s partition,
      publishedAt [1, 2, 3] = some s ∧ partitionOf s.bus "orders" 0 = some partition ∧
      partition.messages.Pairwise (fun a b => a.timestamp ≤ b.timestamp) ∧
      (∃ msg ∈ partition.messages, 2 < msg.timestamp) ∧
      (partition.messages.filter fun msg => 2 < msg.timestamp).map (·.timestamp) = [3] :=
    ⟨_, _, rfl, rfl, by decide, by decide, by decide⟩
  obtain ⟨kept, still, exact_iff⟩ := enforceRetention_exact_iff found ordered 2
  exact ⟨s, partition, kept, run, found, still, by rw [exact_iff.mpr (Or.inr later), filtered]⟩

/-- No message is after the cutoff, and none is removed. -/
theorem all_expired_kept :
    ((publishedAt [1, 2]).map fun s =>
      (messagesOf (enforceRetention s.bus "orders" 5) "orders" 0).map (·.timestamp)) =
      some [1, 2] := by
  decide

end AsyncPractice.BusExample
