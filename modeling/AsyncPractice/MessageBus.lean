import AsyncPractice.Checksum
import AsyncPractice.GoMap

/- PartitionedMessageBus of solution18_message_bus.go: topics of partitions, and Send. A division by
zero and an index out of range panic, which is `none`; an error is its text. -/
namespace AsyncPractice.MessageBus

open Option List

variable {O : Type}

/-- A message, together with its origin: no function looks at the origin, it only tells
messages of the same content apart. -/
structure Message (O : Type) where
  id : String
  topic : String
  partition : Nat
  offset : Nat
  key : Bytes
  value : Bytes
  headers : GoMap String String
  timestamp : Int
  origin : O
  deriving DecidableEq

structure Partition (O : Type) where
  messages : List (Message O)
  offset : Nat

structure Topic (O : Type) where
  partitions : List (Partition O)

def Topic.set (topic : Topic O) (partitionID : Nat) (partition : Partition O) : Topic O :=
  ⟨topic.partitions.set partitionID partition⟩

structure Consumer where
  id : String
  groupID : String
  topics : List String
  heartbeat : Int
  active : Bool

/-- The assignments are by topic and partition. -/
structure ConsumerGroup where
  id : String
  consumers : GoMap String Consumer
  assignments : GoMap String (GoMap Nat String)
  generation : Int32

/-- The offsets of the offset manager are by group, topic and partition. -/
structure PartitionedMessageBus (O : Type) where
  topics : GoMap String (Topic O)
  groups : GoMap String ConsumerGroup
  offsets : GoMap String (GoMap String (GoMap Nat Nat))

def newPartitionedMessageBus : PartitionedMessageBus O := ⟨∅, ∅, ∅⟩

def createTopic (mb : PartitionedMessageBus O) (name : String) (numPartitions : Nat) :
    Except String (PartitionedMessageBus O) :=
  if (mb.topics.lookup name).isSome then .error ("topic " ++ name ++ " already exists")
  else
    .ok { mb with topics := mb.topics.insert name ⟨List.replicate numPartitions ⟨[], 0⟩⟩ }

/-- Sum32 of fnv.New32a. -/
def fnv32a (key : Bytes) : UInt32 :=
  key.foldl (fun hash byte => (hash ^^^ byte.toUInt32) * 16777619) 2166136261

/-- `nanos` is what UnixNano reads. A remainder of 32 bits is never negative as an int. -/
def selectPartition (key : Bytes) (numPartitions : Nat) (nanos : Int) : Option Int :=
  if key.length = 0 then
    if numPartitions = 0 then none else some (nanos.tmod numPartitions)
  else if UInt32.ofNat numPartitions = 0 then none
  else some (fnv32a key % UInt32.ofNat numPartitions).toNat

/-- The clock as Send reads it, to choose a partition and for the timestamp. -/
structure Reading where
  nanos : Int
  timestamp : Int

def messageID (topicName : String) (partitionID offset : Nat) : String :=
  topicName ++ "-" ++ toString partitionID ++ "-" ++ toString offset

def Partition.append (partition : Partition O) (message : Message O) : Partition O :=
  ⟨partition.messages ++ [message], partition.offset + 1⟩

structure Request (O : Type) where
  topicName : String
  key : Bytes
  value : Bytes
  headers : GoMap String String
  origin : O

def newMessage (request : Request O) (partitionID offset : Nat) (timestamp : Int) : Message O where
  id := messageID request.topicName partitionID offset
  topic := request.topicName
  partition := partitionID
  offset := offset
  key := request.key
  value := request.value
  headers := request.headers
  timestamp := timestamp
  origin := request.origin

/-- No partition has a replica. -/
def send (mb : PartitionedMessageBus O) (request : Request O) (reading : Reading) :
    Option (Except String (PartitionedMessageBus O)) :=
  match mb.topics.lookup request.topicName with
  | none => some (.error ("topic " ++ request.topicName ++ " not found"))
  | some topic =>
    (selectPartition request.key topic.partitions.length reading.nanos).bind fun partitionID =>
      if partitionID < 0 ∨ partitionID ≥ topic.partitions.length then
        some (.error ("invalid partition " ++ toString partitionID))
      else
        topic.partitions[partitionID.toNat]?.map fun partition =>
          let message := newMessage request partitionID.toNat partition.offset reading.timestamp
          let topic := topic.set partitionID.toNat (partition.append message)
          .ok { mb with topics := mb.topics.insert request.topicName topic }

/-- The number of partitions is no multiple of 2 ^ 32, as which it would be cut to zero. -/
def ValidCount (numPartitions : Nat) : Prop := numPartitions % 2 ^ 32 ≠ 0

instance (numPartitions : Nat) : Decidable (ValidCount numPartitions) :=
  inferInstanceAs (Decidable (_ ≠ _))

def ValidCounts (mb : PartitionedMessageBus O) : Prop :=
  ∀ name topic, mb.topics.lookup name = some topic → ValidCount topic.partitions.length

/-- Send finds the topic and, without a key, a partition of it by the clock. -/
def Sendable (mb : PartitionedMessageBus O) (request : Request O) (reading : Reading) : Prop :=
  ∃ topic, mb.topics.lookup request.topicName = some topic ∧
    (request.key.length ≠ 0 ∨ 0 ≤ reading.nanos ∨
      (topic.partitions.length : Int) ∣ reading.nanos)

instance (mb : PartitionedMessageBus O) (request : Request O) (reading : Reading) :
    Decidable (Sendable mb request reading) :=
  inferInstanceAs (Decidable (∃ topic ∈ mb.topics.lookup request.topicName, _))

theorem createTopic_ok {mb t : PartitionedMessageBus O} {name : String} {n : Nat}
    (made : createTopic mb name n = .ok t) :
    mb.topics.lookup name = none ∧ t = { mb with
      topics := mb.topics.insert name ⟨List.replicate n ⟨[], 0⟩⟩ } := by
  unfold createTopic at made
  split at made
  · cases made
  next new =>
    exact ⟨by simpa using new, (Except.ok.inj made).symm⟩

section

variable {k : Bytes} {n : Nat} (nanos : Int) (valid : ValidCount n)
include valid

theorem ValidCount.pos : 0 < n := by
  unfold ValidCount at valid
  omega

theorem selectPartition_key (keyed : k.length ≠ 0) :
    ∃ p, selectPartition k n nanos = some p ∧ 0 ≤ p ∧ p < n := by
  have size : (UInt32.ofNat n).toNat = n % 2 ^ 32 :=
    UInt32.toNat_ofNat'
  have nonzero : UInt32.ofNat n ≠ 0 := by
    intro zero
    rw [zero] at size
    exact valid size.symm
  refine ⟨_, by rw [selectPartition, if_neg keyed, if_neg nonzero], Int.natCast_nonneg _, ?_⟩
  have below := Nat.mod_lt (fnv32a k).toNat (Nat.pos_of_ne_zero valid)
  rw [UInt32.toNat_mod, size]
  omega

theorem selectPartition_clock (unkeyed : k.length = 0) :
    selectPartition k n nanos = some (nanos.tmod n) ∧ nanos.tmod n < n ∧
      (0 ≤ nanos.tmod n ↔ 0 ≤ nanos ∨ (n : Int) ∣ nanos) := by
  have pos := valid.pos
  have positive' : (0 : Int) < n := by omega
  refine ⟨by rw [selectPartition, if_pos unkeyed, if_neg (by omega)],
    Int.tmod_lt_of_pos nanos positive', ?_⟩
  constructor
  · intro nonneg
    by_cases before : 0 ≤ nanos
    · exact .inl before
    · right
      have flipped : (-nanos).tmod n = 0 := by
        have above : 0 ≤ (-nanos).tmod n := Int.tmod_nonneg _ (by omega)
        rw [Int.neg_tmod] at above ⊢
        omega
      exact (Int.dvd_neg.mp (Int.dvd_of_tmod_eq_zero flipped))
  · rintro (nonneg | divides)
    · exact Int.tmod_nonneg _ nonneg
    · rw [Int.tmod_eq_zero_of_dvd divides]

end

variable {mb t : PartitionedMessageBus O} {req : Request O} {rd : Reading}

/-- What a Send that goes through does: it appends one message to one partition. -/
structure Sent (mb : PartitionedMessageBus O) (request : Request O) (timestamp : Int)
    (next : PartitionedMessageBus O) (topic : Topic O) (partitionID : Nat)
    (partition : Partition O) : Prop where
  found : mb.topics.lookup request.topicName = some topic
  present : topic.partitions[partitionID]? = some partition
  result : next = { mb with topics := mb.topics.insert request.topicName (topic.set partitionID
    (partition.append (newMessage request partitionID partition.offset timestamp))) }

theorem send_ok (sent : send mb req rd = some (.ok t)) :
    ∃ topic p part, Sent mb req rd.timestamp t topic p part := by
  unfold send at sent
  split at sent
  · cases sent
  next topic found =>
    obtain ⟨p, -, chosen⟩ := bind_eq_some_iff.mp sent
    split at chosen
    · cases chosen
    · obtain ⟨part, hit, eq⟩ := map_eq_some_iff.mp chosen
      exact ⟨topic, _, part, found, hit, (Except.ok.inj eq).symm⟩

/-- Send returns an error exactly when the request is not sendable, and never panics. -/
theorem send_cases (valid : ValidCounts mb) (req rd) :
    (¬ Sendable mb req rd ∧ ∃ error, send mb req rd = some (.error error)) ∨
      (Sendable mb req rd ∧ ∃ t, send mb req rd = some (.ok t)) := by
  cases found : mb.topics.lookup req.topicName with
  | none =>
    refine .inl ⟨?_, _, by simp only [send, found]; rfl⟩
    rintro ⟨topic, hit, -⟩
    rw [found] at hit
    cases hit
  | some topic =>
    have count := valid _ topic found
    have sendable : Sendable mb req rd ↔ req.key.length ≠ 0 ∨ 0 ≤ rd.nanos ∨
        (topic.partitions.length : Int) ∣ rd.nanos := by
      simp [Sendable, found]
    have chosen : ∃ p, selectPartition req.key topic.partitions.length rd.nanos = some p ∧
        p < topic.partitions.length ∧
        (0 ≤ p ↔ Sendable mb req rd) := by
      rw [sendable]
      by_cases unkeyed : req.key.length = 0
      · obtain ⟨selected, below, nonneg⟩ :=
          selectPartition_clock rd.nanos count unkeyed
        exact ⟨_, selected, below, by rw [nonneg, or_iff_right (not_not_intro unkeyed)]⟩
      · obtain ⟨p, selected, nonneg, below⟩ :=
          selectPartition_key rd.nanos count unkeyed
        exact ⟨p, selected, below, iff_of_true nonneg (.inl unkeyed)⟩
    obtain ⟨p, selected, below, nonneg⟩ := chosen
    rw [← nonneg]
    simp only [send, found, selected, Option.bind_some]
    by_cases negative : p < 0
    · exact .inl ⟨by omega, _, if_pos (.inl negative)⟩
    · have lt : p.toNat < topic.partitions.length := by omega
      rw [if_neg (by omega), getElem?_eq_getElem lt]
      exact .inr ⟨by omega, _, rfl⟩

section

variable {time : Int} {topic : Topic O} {p : Nat} {part : Partition O}

theorem Sent.lookup (sent : Sent mb req time t topic p part) (name) :
    (t.topics.lookup name).map (·.partitions.length) =
      (mb.topics.lookup name).map (·.partitions.length) := by
  rw [sent.result, GoMap.lookup_insert_ite]
  split
  next eq =>
    rw [eq, sent.found, Option.map_some, Option.map_some, Topic.set, length_set]
  · rfl

theorem Sent.partitions (sent : Sent mb req time t topic p part) (name index) :
    (t.topics.lookup name).bind (·.partitions[index]?) = if name = req.topicName ∧ index = p then
        some (part.append (newMessage req p part.offset time))
      else (mb.topics.lookup name).bind (·.partitions[index]?) := by
  have lt := (List.getElem?_eq_some_iff.mp sent.present).1
  rw [sent.result, GoMap.lookup_insert_ite]
  by_cases same : name = req.topicName
  · subst same
    rw [if_pos rfl, sent.found, Option.bind_some, Option.bind_some, Topic.set, getElem?_set]
    by_cases changed : p = index
    · simp [changed, changed ▸ lt]
    · simp [changed, Ne.symm changed]
  · simp [same]

theorem validCounts_congr (eq : ∀ name, (t.topics.lookup name).map (·.partitions.length) =
    (mb.topics.lookup name).map (·.partitions.length)) (valid : ValidCounts mb) :
    ValidCounts t := by
  intro name topic found
  have sizes := eq name
  rw [found, Option.map_some, eq_comm, map_eq_some_iff] at sizes
  obtain ⟨pre, hit, size⟩ := sizes
  rw [← size]
  exact valid name pre hit

variable {name : String} {n : Nat}

theorem ValidCounts.createTopic (valid : ValidCounts mb) (count : ValidCount n)
    (made : createTopic mb name n = .ok t) : ValidCounts t := by
  obtain ⟨-, rfl⟩ := createTopic_ok made
  intro x topic hit
  rcases GoMap.lookup_insert_cases hit with ⟨-, rfl⟩ | ⟨-, hit⟩
  · rwa [length_replicate]
  · exact valid x topic hit

theorem sendable_congr (eq : ∀ name, (t.topics.lookup name).map (·.partitions.length) =
    (mb.topics.lookup name).map (·.partitions.length)) (req rd) :
    Sendable t req rd ↔ Sendable mb req rd := by
  have sizes : ∀ mb : PartitionedMessageBus O, Sendable mb req rd ↔
      ∃ size, (mb.topics.lookup req.topicName).map (·.partitions.length) = some size ∧
        (req.key.length ≠ 0 ∨ 0 ≤ rd.nanos ∨ (size : Int) ∣ rd.nanos) := by
    intro mb
    simp [Sendable]
  rw [sizes, sizes, eq]

variable [DecidableEq O]

def Partition.copies (partition : Partition O) (origin : O) : Nat :=
  partition.messages.countP (·.origin = origin)

def Topic.copies (topic : Topic O) (origin : O) : Nat :=
  (topic.partitions.flatMap (·.messages)).countP (·.origin = origin)

/-- How often a message of the origin appears in the partitions of all topics. -/
def PartitionedMessageBus.copies (mb : PartitionedMessageBus O) (origin : O) : Nat :=
  GoMap.total (·.copies origin) mb.topics

theorem Topic.copies_set (origin) (hit : topic.partitions[p]? = some part) (changed) :
    (topic.set p changed).copies origin + part.copies origin =
      topic.copies origin + changed.copies origin := by
  obtain ⟨partitions⟩ := topic
  simp only [Topic.copies, Partition.copies, Topic.set] at hit ⊢
  induction partitions generalizing p with
  | nil => cases hit
  | cons x rest ih =>
    cases p with
    | zero =>
      cases hit
      rw [set_cons_zero, flatMap_cons, flatMap_cons, countP_append, countP_append]
      omega
    | succ p =>
      have later := ih hit
      rw [set_cons_succ, flatMap_cons, flatMap_cons, countP_append, countP_append]
      omega

theorem Sent.copies (sent : Sent mb req time t topic p part) (origin) :
    t.copies origin = mb.copies origin + if req.origin = origin then 1 else 0 := by
  have added : ∀ msg : Message O, (part.append msg).copies origin =
      part.copies origin + if msg.origin = origin then 1 else 0 := by
    intro msg
    simp [Partition.copies, Partition.append, countP_append]
  have topics := GoMap.total_insert (·.copies origin) mb.topics req.topicName (topic.set p
      (part.append (newMessage req p part.offset time)))
  have partitions := Topic.copies_set origin sent.present
    (part.append (newMessage req p part.offset time))
  rw [sent.found, Option.map_some, getD_some] at topics
  rw [added, show (newMessage req p part.offset time).origin = req.origin from rfl] at partitions
  rw [sent.result, PartitionedMessageBus.copies, PartitionedMessageBus.copies]
  dsimp only
  omega

theorem copies_createTopic (made : createTopic mb name n = .ok t) (origin) :
    t.copies origin = mb.copies origin := by
  obtain ⟨absent, rfl⟩ := createTopic_ok made
  have empty : Topic.copies ⟨replicate n (⟨[], 0⟩ : Partition O)⟩ origin = 0 := by
    rw [Topic.copies, flatMap_eq_nil_iff.mpr, countP_nil]
    intro part mem
    rw [eq_of_mem_replicate mem]
  have added := GoMap.total_insert (fun topic : Topic O => topic.copies origin) mb.topics name
    ⟨replicate n ⟨[], 0⟩⟩
  rw [absent, empty] at added
  exact added

end

end AsyncPractice.MessageBus
