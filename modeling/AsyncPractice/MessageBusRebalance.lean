import AsyncPractice.MessageBus
import Mathlib.Data.List.GetD

/- Consumer groups of solution18_message_bus.go: joining, the health check and the rebalance that
both start in the background. The three loops of a rebalance range over maps in any order. -/
namespace AsyncPractice.MessageBus

open Finmap GoMap List

variable {O : Type}

def createConsumerGroup (mb : PartitionedMessageBus O) (groupID : String) :
    Except String (PartitionedMessageBus O) :=
  if (mb.groups.lookup groupID).isSome then
    .error ("consumer group " ++ groupID ++ " already exists")
  else
    .ok { mb with
      groups := mb.groups.insert groupID ⟨groupID, ∅, ∅, 0⟩
      offsets := mb.offsets.insert groupID ∅ }

/-- The rebalance that JoinGroup starts is a step of its own. -/
def joinGroup (mb : PartitionedMessageBus O) (groupID consumerID : String) (topics : List String)
    (now : Int) : Except String (PartitionedMessageBus O) :=
  match mb.groups.lookup groupID with
  | none => .error ("consumer group " ++ groupID ++ " not found")
  | some group =>
    let consumer : Consumer := ⟨consumerID, groupID, topics, now, true⟩
    .ok { mb with
      groups := mb.groups.insert groupID
        { group with consumers := group.consumers.insert consumerID consumer } }

/-- No heartbeat for more than 30 seconds. -/
def Consumer.timedOut (now : Int) (consumer : Consumer) : Bool :=
  consumer.active && decide (now - consumer.heartbeat > 30 * 10 ^ 9)

/-- Every consumer that is marked here starts a rebalance, a step of its own. -/
def checkGroupHealth (now : Int) (order : List String) (group : ConsumerGroup) : ConsumerGroup :=
  { group with
    consumers := rangeUpdate (fun consumer =>
      if consumer.timedOut now then { consumer with active := false } else consumer)
      order group.consumers }

variable (mb : PartitionedMessageBus O)

/-- A topic without partitions gets no entry. -/
def collectTopic (topicPartitions : GoMap String (List Nat)) (topicName : String) :
    GoMap String (List Nat) :=
  match mb.topics.lookup topicName with
  | none => topicPartitions
  | some topic => (List.range topic.partitions.length).foldl (fun collected i =>
    collected.insert topicName ((collected.lookup topicName).getD [] ++ [i])) topicPartitions

def collectConsumer (consumers : GoMap String Consumer)
    (topicPartitions : GoMap String (List Nat)) (id : String) : GoMap String (List Nat) :=
  match consumers.lookup id with
  | none => topicPartitions
  | some consumer =>
    if consumer.active then consumer.topics.foldl (collectTopic mb) topicPartitions
    else topicPartitions

def collectPartitions (consumers : GoMap String Consumer) (order : List String) :
    GoMap String (List Nat) :=
  order.foldl (collectConsumer mb consumers) ∅

def activeConsumers (consumers : GoMap String Consumer) (order : List String) : List String :=
  order.filter fun id => (consumers.lookup id).any (·.active)

/-- The owners of one topic's partitions and the consumer index. -/
def assignPartition (active : List String) (assigned : GoMap Nat String × Nat) (partition : Nat) :
    GoMap Nat String × Nat :=
  (assigned.1.insert partition (active.getD (assigned.2 % active.length) ""), assigned.2 + 1)

def assignTopic (active : List String) (topicPartitions : GoMap String (List Nat))
    (assigned : GoMap String (GoMap Nat String) × Nat) (topic : String) :
    GoMap String (GoMap Nat String) × Nat :=
  let owners := ((topicPartitions.lookup topic).getD []).foldl (assignPartition active)
    ((assigned.1.lookup topic).getD ∅, assigned.2)
  (assigned.1.insert topic owners.1, owners.2)

/-- The orders of the three loops over maps. -/
structure Orders where
  collecting : List String
  gathering : List String
  topics : List String

structure Orders.Legal (group : ConsumerGroup) (orders : Orders) : Prop where
  collecting : Ranges orders.collecting group.consumers
  gathering : Ranges orders.gathering group.consumers
  topics : Ranges orders.topics
    (collectPartitions mb group.consumers orders.collecting)

instance (group : ConsumerGroup) (orders : Orders) : Decidable (orders.Legal mb group) :=
  decidable_of_iff (Ranges orders.collecting group.consumers ∧
    Ranges orders.gathering group.consumers ∧
    Ranges orders.topics (collectPartitions mb group.consumers orders.collecting))
    ⟨fun ⟨collecting, gathering, topics⟩ => ⟨collecting, gathering, topics⟩,
      fun legal => ⟨legal.collecting, legal.gathering, legal.topics⟩⟩

def rebalanceGroup (group : ConsumerGroup) (orders : Orders) : ConsumerGroup :=
  let topicPartitions := collectPartitions mb group.consumers orders.collecting
  let active := activeConsumers group.consumers orders.gathering
  if active.length = 0 then { group with generation := group.generation + 1 }
  else
    { group with
      generation := group.generation + 1
      assignments := (orders.topics.foldl (assignTopic active topicPartitions) (∅, 0)).1 }

def rebalance (groupID : String) (orders : Orders) : PartitionedMessageBus O :=
  match mb.groups.lookup groupID with
  | none => mb
  | some group => { mb with groups := mb.groups.insert groupID (rebalanceGroup mb group orders) }

def Active (consumers : GoMap String Consumer) (id : String) : Prop :=
  ∃ consumer, consumers.lookup id = some consumer ∧ consumer.active = true

/-- The consumer is active and its own list names the topic. -/
def Subscribes (consumers : GoMap String Consumer) (id topicName : String) : Prop :=
  ∃ consumer, consumers.lookup id = some consumer ∧ consumer.active = true ∧
    topicName ∈ consumer.topics

def owner (assignments : GoMap String (GoMap Nat String)) (topicName : String) (i : Nat) :
    Option String :=
  (assignments.lookup topicName).bind (·.lookup i)

/-- What a rebalance is for. -/
structure Balanced (mb : PartitionedMessageBus O) (group : ConsumerGroup) : Prop where
  assigned : ∀ topicName topic id, mb.topics.lookup topicName = some topic →
    Subscribes group.consumers id topicName → ∀ i < topic.partitions.length,
    ∃ consumerID, owner group.assignments topicName i = some consumerID
  subscribed : ∀ topicName i consumerID, owner group.assignments topicName i = some consumerID →
    Subscribes group.consumers consumerID topicName

/-- The active consumers agree on the topics that have partitions, and a group without active
consumers has no assignments. -/
structure Uniform (mb : PartitionedMessageBus O) (group : ConsumerGroup) : Prop where
  shared : ∀ topicName topic id other, mb.topics.lookup topicName = some topic →
    0 < topic.partitions.length → Subscribes group.consumers id topicName →
    Active group.consumers other → Subscribes group.consumers other topicName
  idle : (∀ id, ¬Active group.consumers id) →
    ∀ topicName i, owner group.assignments topicName i = none

variable {mb : PartitionedMessageBus O} {cs : GoMap String Consumer}

def HasPartition (mb : PartitionedMessageBus O) (topicName : String) (i : Nat) : Prop :=
  ∃ topic, mb.topics.lookup topicName = some topic ∧ i < topic.partitions.length

theorem getD_lookup_foldl_append (tps : GoMap String (List Nat)) (topicName name)
    (partitions : List Nat) :
    ((partitions.foldl (fun got i =>
        got.insert topicName ((got.lookup topicName).getD [] ++ [i]))
        tps).lookup name).getD [] =
      (tps.lookup name).getD [] ++ if name = topicName then partitions else [] := by
  induction partitions generalizing tps with
  | nil => simp
  | cons i partitions ih =>
    rw [foldl_cons, ih, lookup_insert_ite]
    by_cases same : name = topicName
    · subst same
      simp
    · simp [same]

variable {tps : GoMap String (List Nat)} {name id : String} {i : Nat} {order : List String}

theorem mem_collectTopic {topicName} :
    i ∈ ((collectTopic mb tps topicName).lookup name).getD [] ↔
      i ∈ (tps.lookup name).getD [] ∨ name = topicName ∧ HasPartition mb name i := by
  unfold collectTopic HasPartition
  split
  next absent =>
    constructor
    · exact Or.inl
    · rintro (got | ⟨rfl, topic, hit, -⟩)
      · exact got
      · rw [absent] at hit
        cases hit
  next topic hit =>
    rw [getD_lookup_foldl_append, mem_append]
    by_cases same : name = topicName
    · subst same
      simp [hit]
    · simp [same]

theorem mem_foldl_collectTopic {topics : List String} :
    i ∈ ((topics.foldl (collectTopic mb) tps).lookup name).getD [] ↔
      i ∈ (tps.lookup name).getD [] ∨ name ∈ topics ∧ HasPartition mb name i := by
  induction topics generalizing tps with
  | nil => simp
  | cons topicName topics ih =>
    rw [foldl_cons, ih, mem_collectTopic, mem_cons]
    tauto

theorem mem_collectConsumer :
    i ∈ ((collectConsumer mb cs tps id).lookup name).getD [] ↔
      i ∈ (tps.lookup name).getD [] ∨ Subscribes cs id name ∧ HasPartition mb name i := by
  unfold collectConsumer Subscribes
  split
  next absent =>
    simp [absent]
  next consumer hit =>
    split
    next active =>
      rw [mem_foldl_collectTopic]
      simp [hit, active]
    next inactive =>
      simp [hit, inactive]

theorem mem_collectPartitions :
    i ∈ ((collectPartitions mb cs order).lookup name).getD [] ↔
      (∃ id ∈ order, Subscribes cs id name) ∧ HasPartition mb name i := by
  unfold collectPartitions
  have general : ∀ tps : GoMap String (List Nat),
      i ∈ ((order.foldl (collectConsumer mb cs) tps).lookup name).getD [] ↔
        i ∈ (tps.lookup name).getD [] ∨
          (∃ id ∈ order, Subscribes cs id name) ∧ HasPartition mb name i := by
    induction order with
    | nil => simp
    | cons id order ih =>
      intro tps
      rw [foldl_cons, ih, mem_collectConsumer]
      simp only [mem_cons, exists_eq_or_imp]
      tauto
  simpa using general ∅

theorem mem_of_mem_getD (mem : i ∈ (tps.lookup name).getD []) :
    name ∈ tps := by
  rw [← lookup_isSome]
  cases found : tps.lookup name with
  | none =>
    rw [found] at mem
    cases mem
  | some partitions => rfl

theorem Subscribes.mem (subs : Subscribes cs id name) : id ∈ cs := by
  obtain ⟨consumer, hit, -⟩ := subs
  exact mem_of_lookup_eq_some hit

theorem Subscribes.active (subs : Subscribes cs id name) : Active cs id := by
  obtain ⟨consumer, hit, active, -⟩ := subs
  exact ⟨consumer, hit, active⟩

theorem mem_activeConsumers (ranges : Ranges order cs) :
    id ∈ activeConsumers cs order ↔ Active cs id := by
  unfold activeConsumers Active
  rw [mem_filter, ranges.mem_iff, ← lookup_isSome]
  cases cs.lookup id <;> simp

variable {active : List String} {partitions : List Nat}

theorem foldl_assignPartition_snd (assigned) :
    (partitions.foldl (assignPartition active) assigned).2 = assigned.2 + partitions.length := by
  induction partitions generalizing assigned with
  | nil => rfl
  | cons j partitions ih =>
    rw [foldl_cons, ih, assignPartition, length_cons]
    omega

/-- The partitions of a topic are dealt out from some place on; one that is listed more than
once goes to the last of its places. -/
theorem lookup_foldl_assignPartition (mem : i ∈ partitions) :
    ∃ p, ∀ (active : List String) (owners : GoMap Nat String) (start : Nat),
      (partitions.foldl (assignPartition active) (owners, start)).1.lookup i =
        some (active.getD ((start + p) % active.length) "") := by
  induction partitions using List.reverseRecOn with
  | nil => cases mem
  | append_singleton partitions j ih =>
    by_cases last : i = j
    · refine ⟨partitions.length, ?_⟩
      intro active owners start
      rw [foldl_concat, assignPartition, last, lookup_insert, foldl_assignPartition_snd]
    · obtain ⟨p, dealt⟩ := ih (by simpa [last] using mem)
      refine ⟨p, ?_⟩
      intro active owners start
      rw [foldl_concat, assignPartition, lookup_insert_of_ne _ last, dealt]

theorem lookup_foldl_assignPartition_other (outside : i ∉ partitions) (assigned) :
    (partitions.foldl (assignPartition active) assigned).1.lookup i = assigned.1.lookup i := by
  induction partitions generalizing assigned with
  | nil => rfl
  | cons j partitions ih =>
    rw [mem_cons, not_or] at outside
    rw [foldl_cons, ih outside.2, assignPartition, lookup_insert_of_ne _ outside.1]

theorem lookup_foldl_assignTopic_other (outside : name ∉ order) (assigned) :
    (order.foldl (assignTopic active tps) assigned).1.lookup name = assigned.1.lookup name := by
  induction order generalizing assigned with
  | nil => rfl
  | cons topic order ih =>
    rw [mem_cons, not_or] at outside
    rw [foldl_cons, ih outside.2, assignTopic, lookup_insert_of_ne _ outside.1]

/-- From where on a topic is dealt out does not depend on the consumers. -/
theorem lookup_foldl_assignTopic (tps) (nodup : order.Nodup) (mem : name ∈ order) (n) :
    ∃ start, ∀ (active : List String) (owners : GoMap String (GoMap Nat String)),
      owners.lookup name = none →
      (order.foldl (assignTopic active tps) (owners, n)).1.lookup name =
        some (((tps.lookup name).getD []).foldl (assignPartition active) (∅, start)).1 := by
  induction order generalizing n with
  | nil => cases mem
  | cons topic order ih =>
    obtain ⟨outside, nodup⟩ := nodup_cons.mp nodup
    by_cases same : name = topic
    · subst same
      refine ⟨n, fun active owners new => ?_⟩
      rw [foldl_cons, lookup_foldl_assignTopic_other outside, assignTopic, lookup_insert, new]
      rfl
    · obtain ⟨start, dealt⟩ := ih nodup (by simpa [same] using mem)
        (n + ((tps.lookup topic).getD []).length)
      refine ⟨start, fun active owners new => ?_⟩
      rw [foldl_cons, assignTopic, foldl_assignPartition_snd]
      exact dealt active _ ((lookup_insert_of_ne _ same).trans new)

section

variable {g : ConsumerGroup} {orders : Orders}

theorem rebalanceGroup_consumers : (rebalanceGroup mb g orders).consumers = g.consumers := by
  unfold rebalanceGroup
  dsimp only
  split <;> rfl

theorem rebalanceGroup_idle (legal : orders.Legal mb g) (idle : ∀ id, ¬Active g.consumers id) :
    (rebalanceGroup mb g orders).assignments = g.assignments := by
  have none : activeConsumers g.consumers orders.gathering = [] := by
    apply eq_nil_iff_forall_not_mem.mpr
    intro id mem
    exact idle id ((mem_activeConsumers legal.gathering).mp mem)
  simp [rebalanceGroup, none]

theorem activeConsumers_length_pos {order} (ranges : Ranges order g.consumers)
    (active : Active g.consumers id) : 0 < (activeConsumers g.consumers order).length :=
  length_pos_of_mem ((mem_activeConsumers ranges).mpr active)

theorem rebalanceGroup_assignments (legal : orders.Legal mb g) (active : Active g.consumers id) :
    (rebalanceGroup mb g orders).assignments =
      (orders.topics.foldl (assignTopic (activeConsumers g.consumers orders.gathering)
        (collectPartitions mb g.consumers orders.collecting)) (∅, 0)).1 := by
  have some := activeConsumers_length_pos legal.gathering active
  simp [rebalanceGroup, Nat.ne_of_gt some]

variable (legal : orders.Legal mb g)

include legal

theorem owner_of_collected (active : Active g.consumers id)
    (got : i ∈ ((collectPartitions mb g.consumers orders.collecting).lookup name).getD []) :
    ∃ c, owner (rebalanceGroup mb g orders).assignments name i = some c ∧ Active g.consumers c := by
  have listed : name ∈ collectPartitions mb g.consumers orders.collecting :=
    mem_of_mem_getD got
  obtain ⟨start, hit⟩ := lookup_foldl_assignTopic _ legal.topics.1
    (legal.topics.mem_iff.mpr listed) 0
  obtain ⟨p, dealt⟩ := lookup_foldl_assignPartition got
  have lt := Nat.mod_lt (start + p) (activeConsumers_length_pos legal.gathering active)
  refine ⟨_, ?_, (mem_activeConsumers legal.gathering).mp (getElem_mem lt)⟩
  rw [rebalanceGroup_assignments legal active, owner, hit _ _ (lookup_empty name),
    Option.bind_some, dealt, getD_eq_getElem _ _ lt]

theorem collected_of_owner {c} (active : Active g.consumers id)
    (owned : owner (rebalanceGroup mb g orders).assignments name i = some c) :
    i ∈ ((collectPartitions mb g.consumers orders.collecting).lookup name).getD [] := by
  rw [rebalanceGroup_assignments legal active, owner] at owned
  by_contra outside
  by_cases ranged : name ∈ orders.topics
  · obtain ⟨start, hit⟩ := lookup_foldl_assignTopic _ legal.topics.1 ranged 0
    rw [hit _ _ (lookup_empty name), Option.bind_some,
      lookup_foldl_assignPartition_other outside, lookup_empty] at owned
    cases owned
  · rw [lookup_foldl_assignTopic_other ranged, lookup_empty] at owned
    cases owned

/-- All partitions of a subscribed topic are assigned, whatever the consumers subscribe to. -/
theorem rebalanced_assigned {topicName topic} (made : mb.topics.lookup topicName = some topic)
    (subs : Subscribes g.consumers id topicName) (lt : i < topic.partitions.length) :
    ∃ c, owner (rebalanceGroup mb g orders).assignments topicName i =
        some c ∧ Active g.consumers c :=
  owner_of_collected legal subs.active (mem_collectPartitions.mpr
    ⟨⟨id, legal.collecting.mem_iff.mpr subs.mem, subs⟩, topic, made, lt⟩)

theorem balanced_of_uniform (uniform : Uniform mb g) :
    Balanced mb (rebalanceGroup mb g orders) := by
  constructor
  · rw [rebalanceGroup_consumers]
    intro topicName topic id made subs i lt
    obtain ⟨c, owned, -⟩ := rebalanced_assigned legal made subs lt
    exact ⟨c, owned⟩
  · rw [rebalanceGroup_consumers]
    intro topicName i c owned
    by_cases any : ∃ id, Active g.consumers id
    · obtain ⟨id, active⟩ := any
      have got := collected_of_owner legal active owned
      obtain ⟨consumerID', owned', active'⟩ := owner_of_collected legal active got
      rw [owned, Option.some.injEq] at owned'
      obtain ⟨⟨x, -, subs⟩, topic, made, lt⟩ := mem_collectPartitions.mp got
      exact uniform.shared topicName topic x c made (by omega) subs (owned' ▸ active')
    · have idle : ∀ id, ¬Active g.consumers id := fun id active => any ⟨id, active⟩
      rw [rebalanceGroup_idle legal idle, uniform.idle idle] at owned
      cases owned

end

variable {group : ConsumerGroup} {other : String}

/-- The range over the consumers may bring an active one to any place. -/
theorem exists_gathering {cs} (active : Active cs other) (p) :
    ∃ order, Ranges order cs ∧
      (activeConsumers cs order).getD (p % (activeConsumers cs order).length) "" = other := by
  obtain ⟨order, ranges⟩ := exists_ranges cs
  obtain ⟨index, lt, hit⟩ :=
    getElem_of_mem ((mem_activeConsumers ranges).mpr active)
  generalize turn : activeConsumers cs order = running at *
  have below := Nat.mod_lt p (Nat.zero_lt_of_lt lt)
  -- The active consumers are turned until the one looked for comes to the place.
  have rotated : activeConsumers cs
      (running.rotate (index + (running.length - p % running.length)) ++
        order.filter fun id => !(cs.lookup id).any (·.active)) =
      running.rotate (index + (running.length - p % running.length)) := by
    unfold activeConsumers
    rw [filter_append, filter_eq_self.mpr, filter_filter]
    · simp
    · intro id mem
      rw [mem_rotate, ← turn, activeConsumers, mem_filter] at mem
      exact mem.2
  have perm : (running.rotate (index + (running.length - p % running.length)) ++
      order.filter fun id => !(cs.lookup id).any (·.active)).Perm order := by
    apply ((rotate_perm _ _).append_right _).trans
    rw [← turn]
    exact filter_append_perm _ order
  refine ⟨_, ⟨perm.nodup_iff.mpr ranges.1, (toFinset_eq_of_perm _ _ perm).trans ranges.2⟩, ?_⟩
  rw [rotated, length_rotate, getD_eq_getElem _ _ (by rwa [length_rotate]), getElem_rotate, ← hit]
  congr 1
  have whole : p % running.length + (index + (running.length - p % running.length)) =
      index + running.length := by omega
  rw [whole, Nat.add_mod_right, Nat.mod_eq_of_lt lt]

/-- Some order gives a partition of the topic to any active consumer. -/
theorem exists_orders_owner {topicName id topic} (made : mb.topics.lookup topicName = some topic)
    (lt : 0 < topic.partitions.length) (subs : Subscribes group.consumers id topicName)
    (active : Active group.consumers other) :
    ∃ orders : Orders, orders.Legal mb group ∧
      owner (rebalanceGroup mb group orders).assignments topicName 0 = some other := by
  obtain ⟨collecting, collects⟩ := exists_ranges group.consumers
  have got : 0 ∈ ((collectPartitions mb group.consumers collecting).lookup topicName).getD [] :=
    mem_collectPartitions.mpr ⟨⟨id, collects.mem_iff.mpr subs.mem, subs⟩, topic, made, lt⟩
  obtain ⟨topics, ranges⟩ := exists_ranges (collectPartitions mb group.consumers collecting)
  obtain ⟨start, hit⟩ := lookup_foldl_assignTopic _ ranges.1
    (ranges.mem_iff.mpr (mem_of_mem_getD got)) 0
  obtain ⟨p, dealt⟩ := lookup_foldl_assignPartition got
  obtain ⟨gathering, gathers, turn⟩ := exists_gathering active (start + p)
  have legal : Orders.Legal mb group ⟨collecting, gathering, topics⟩ := ⟨collects, gathers, ranges⟩
  refine ⟨_, legal, ?_⟩
  rw [rebalanceGroup_assignments legal active, owner]
  dsimp only
  rw [hit _ _ (lookup_empty _), Option.bind_some, dealt, turn]

theorem exists_legal (mb : PartitionedMessageBus O) (group) :
    ∃ orders : Orders, orders.Legal mb group := by
  obtain ⟨cs, ranges⟩ := exists_ranges group.consumers
  obtain ⟨topics, topicRanges⟩ :=
    exists_ranges (collectPartitions mb group.consumers cs)
  exact ⟨⟨cs, cs, topics⟩, ranges, ranges, topicRanges⟩

theorem uniform_of_balanced (inv : ∀ orders : Orders, orders.Legal mb group →
      Balanced mb (rebalanceGroup mb group orders)) : Uniform mb group := by
  constructor
  · intro topicName topic id other made lt subs active
    obtain ⟨orders, legal, owned⟩ := exists_orders_owner made lt subs active
    have right := (inv orders legal).subscribed topicName 0 other owned
    rwa [rebalanceGroup_consumers] at right
  · intro idle topicName i
    obtain ⟨orders, legal⟩ := exists_legal mb group
    rw [← rebalanceGroup_idle legal idle, Option.eq_none_iff_forall_ne_some]
    intro c owned
    have right := (inv orders legal).subscribed topicName i c owned
    rw [rebalanceGroup_consumers] at right
    exact idle c right.active

/-- Whatever orders the maps are ranged over in, the rebalance of a group assigns every partition
of the subscribed topics, and only to active subscribers, exactly when the active consumers agree
on the topics that have partitions and a group without any has no assignments left. -/
theorem rebalance_balances_iff {mb : PartitionedMessageBus O} {groupID : String}
    {group : ConsumerGroup} (present : mb.groups.lookup groupID = some group) :
    (∀ orders : Orders, orders.Legal mb group → ∃ after,
        (rebalance mb groupID orders).groups.lookup groupID = some after ∧
          Balanced (rebalance mb groupID orders) after) ↔
      Uniform mb group := by
  have rebalanced : ∀ orders, rebalance mb groupID orders =
      { mb with groups := mb.groups.insert groupID (rebalanceGroup mb group orders) } := by
    intro orders
    rw [rebalance, present]
  constructor
  · intro balances
    apply uniform_of_balanced
    intro orders legal
    obtain ⟨after, found, balanced⟩ := balances orders legal
    rw [rebalanced] at found balanced
    rw [lookup_insert, Option.some.injEq] at found
    exact found ▸ ⟨balanced.assigned, balanced.subscribed⟩
  · intro uniform orders legal
    have balanced := balanced_of_uniform legal uniform
    rw [rebalanced]
    exact ⟨_, lookup_insert _, balanced.assigned, balanced.subscribed⟩

def pairGroup : ConsumerGroup :=
  ⟨"g", ((∅ : GoMap String Consumer).insert "a" ⟨"a", "g", ["t"], 0, true⟩).insert "b"
    ⟨"b", "g", ["t"], 0, true⟩, ∅, 0⟩

def pairBus : PartitionedMessageBus Unit :=
  ⟨(∅ : GoMap String (Topic Unit)).insert "t" ⟨[⟨[], 0⟩, ⟨[], 0⟩, ⟨[], 0⟩]⟩,
    (∅ : GoMap String ConsumerGroup).insert "g" pairGroup, ∅⟩

theorem pairGroup_uniform : Uniform pairBus pairGroup := by
  have subscribed : ∀ id consumer, pairGroup.consumers.lookup id = some consumer →
      consumer.active = true ∧ consumer.topics = ["t"] := by
    intro id consumer hit
    rcases lookup_insert_cases hit with ⟨-, rfl⟩ | ⟨-, hit⟩
    · exact ⟨rfl, rfl⟩
    · rcases lookup_insert_cases hit with ⟨-, rfl⟩ | ⟨-, hit⟩
      · exact ⟨rfl, rfl⟩
      · cases hit
  constructor
  · rintro topicName topic id other - - ⟨x, hit, -, listed⟩ ⟨y, found', active⟩
    rw [(subscribed id x hit).2, ← (subscribed other y found').2] at listed
    exact ⟨y, found', active, listed⟩
  · intro idle
    exact absurd ⟨_, rfl, rfl⟩ (idle "b")

theorem pair_balanced :
    pairBus.groups.lookup "g" = some pairGroup ∧
      ∀ orders : Orders, orders.Legal pairBus pairGroup →
        ∃ after, (rebalance pairBus "g" orders).groups.lookup "g" = some after ∧
          Balanced (rebalance pairBus "g" orders) after :=
  ⟨rfl, (rebalance_balances_iff rfl).mpr pairGroup_uniform⟩

def rebalanceIn (mb : PartitionedMessageBus O) (groupID : String) (orders : Orders) :
    Except String (PartitionedMessageBus O) :=
  match mb.groups.lookup groupID with
  | none => .error "no group"
  | some group =>
    if orders.Legal mb group then .ok (rebalance mb groupID orders) else .error "no order"

/-- A consumer without subscriptions is given the partition another one subscribed to, and the
partition of a consumer that timed out stays with it. -/
theorem rebalance_to_strangers :
    (do
      let mb ← createTopic (newPartitionedMessageBus (O := Unit)) "t" 1
      let mb ← createConsumerGroup mb "g"
      let mb ← joinGroup mb "g" "a" ["t"] 0
      let mb ← joinGroup mb "g" "b" [] 0
      let after ← rebalanceIn mb "g" ⟨["a", "b"], ["b", "a"], ["t"]⟩
      return (after.groups.lookup "g").map fun group =>
        (owner group.assignments "t" 0, (group.consumers.lookup "b").map (·.topics))) =
      Except.ok (some (some "b", some [])) ∧
    (do
      let mb ← createTopic (newPartitionedMessageBus (O := Unit)) "t" 1
      let mb ← createConsumerGroup mb "g"
      let mb ← joinGroup mb "g" "a" ["t"] 0
      let mb ← rebalanceIn mb "g" ⟨["a"], ["a"], ["t"]⟩
      let silent := GoMap.modify (checkGroupHealth (31 * 10 ^ 9) ["a"]) "g" mb.groups
      let mb := { mb with groups := silent }
      let after ← rebalanceIn mb "g" ⟨["a"], ["a"], []⟩
      return (after.groups.lookup "g").map fun group =>
        (owner group.assignments "t" 0, (group.consumers.lookup "a").map (·.active))) =
      Except.ok (some (some "a", some false)) := by
  decide +kernel

end AsyncPractice.MessageBus
