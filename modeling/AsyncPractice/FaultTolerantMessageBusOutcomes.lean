import AsyncPractice.FaultTolerantMessageBus

namespace AsyncPractice.FaultTolerantMessageBus

open List MessageBus Runs

variable {O : Type} (mb : PartitionedMessageBus O) (g t : String) (p off : Nat)

theorem lastOffset_commitOffset (topic part) :
    lastOffset (commitOffset mb g t p off) g topic part = if topic = t ∧ part = p then off
      else lastOffset mb g topic part := by
  simp only [lastOffset, commitOffset, Finmap.lookup_insert, GoMap.lookup_insert_ite]
  by_cases same : topic = t
  · subst same
    simp only [if_true, true_and, GoMap.lookup_insert_ite]
    split
    · rfl
    · cases mb.offsets.lookup g with
      | none => rfl
      | some topicOffsets => cases found : topicOffsets.lookup topic <;> simp [found]
  · simp only [same, if_false, false_and]
    cases mb.offsets.lookup g <;> rfl

variable {g t : String} {p : Nat}

theorem retry_cases (attempts) (m : Message O) (s) (remaining : Nat) :
    retry g t p attempts m s (remaining + 1) = { s with
          mb := commitOffset s.mb g t p (m.offset + 1)
          handled := s.handled ++ [m] } ∨
      retry g t p attempts m s (remaining + 1) = { s with dlq := s.dlq ++ [m] } := by
  induction remaining with
  | zero =>
    unfold retry
    split
    · exact .inl rfl
    · exact .inr rfl
  | succ remaining ih =>
    unfold retry
    split
    · exact .inl rfl
    · exact ih

/-- What a batch does to the state: its messages divide into those that were handled and those
that went to the dead letter queue. -/
structure Consumed (groupID topicName : String) (partitionID : Nat) (s next : State O)
    (batch good bad : List (Message O)) : Prop where
  topics : next.mb.topics = s.mb.topics
  groups : next.mb.groups = s.mb.groups
  offsets : ∀ topic partition, (topic, partition) ≠ (topicName, partitionID) →
    lastOffset next.mb groupID topic partition = lastOffset s.mb groupID topic partition
  handled : next.handled = s.handled ++ good
  dlq : next.dlq = s.dlq ++ bad
  divided : (good ++ bad).Perm batch
  advanced : lastOffset s.mb groupID topicName partitionID ≤
    lastOffset next.mb groupID topicName partitionID
  committed : ∀ msg ∈ good, msg.offset < lastOffset next.mb groupID topicName partitionID

theorem consumed_nil (s : State O) : Consumed g t p s s [] [] [] where
  topics := rfl
  groups := rfl
  offsets _ _ _ := rfl
  handled := (append_nil _).symm
  dlq := (append_nil _).symm
  divided := List.Perm.nil
  advanced := Nat.le_refl _
  committed _ mem := absurd mem not_mem_nil

variable {next s : State O} {m : Message O} {bad batch good : List (Message O)}

theorem Consumed.handle (came : lastOffset s.mb g t p ≤ m.offset) (rest : Consumed g t p { s with
      mb := commitOffset s.mb g t p (m.offset + 1)
      handled := s.handled ++ [m] } next batch good bad) :
    Consumed g t p s next (m :: batch) (m :: good) bad := by
  have adv := rest.advanced
  rw [lastOffset_commitOffset, if_pos ⟨rfl, rfl⟩] at adv
  refine ⟨rest.topics, rest.groups, ?_, ?_, rest.dlq, rest.divided.cons m, by omega, ?_⟩
  · intro topic part other
    rw [rest.offsets topic part other, lastOffset_commitOffset, if_neg]
    rintro ⟨rfl, rfl⟩
    exact other rfl
  · rw [rest.handled]
    simp
  · intro other mem
    rcases mem_cons.mp mem with rfl | mem
    · omega
    · exact rest.committed other mem

theorem Consumed.discard
    (rest : Consumed g t p { s with dlq := s.dlq ++ [m] } next batch good bad) :
    Consumed g t p s next (m :: batch) good (m :: bad) := by
  refine ⟨rest.topics, rest.groups, rest.offsets, rest.handled, ?_, ?_, rest.advanced,
    rest.committed⟩
  · rw [rest.dlq]
    simp
  · exact perm_middle.trans (rest.divided.cons m)

theorem consumed_foldl (attempts : Attempts O)
    (ord : batch.Pairwise fun a b => a.offset < b.offset) (s)
    (ahead : ∀ m ∈ batch, lastOffset s.mb g t p ≤ m.offset) :
    ∃ good bad, Consumed g t p s (batch.foldl (fun s m => retry g t p attempts m s maxRetries) s)
      batch good bad := by
  induction batch generalizing s with
  | nil => exact ⟨[], [], consumed_nil s⟩
  | cons m batch ih =>
    obtain ⟨x, ord⟩ := pairwise_cons.mp ord
    rw [foldl_cons]
    rcases retry_cases attempts m s 2 with handled | discarded
    · rw [maxRetries, handled]
      obtain ⟨good, bad, rest⟩ := ih ord { s with
          mb := commitOffset s.mb g t p (m.offset + 1)
          handled := s.handled ++ [m] } (by
        intro other mem
        rw [lastOffset_commitOffset, if_pos ⟨rfl, rfl⟩]
        exact x other mem)
      exact ⟨m :: good, bad, rest.handle (ahead m mem_cons_self)⟩
    · rw [maxRetries, discarded]
      obtain ⟨good, bad, rest⟩ := ih ord { s with dlq := s.dlq ++ [m] } fun other mem =>
        ahead other (mem_cons_of_mem _ mem)
      exact ⟨good, m :: bad, rest.discard⟩

def messagesOf (mb : PartitionedMessageBus O) (topicName : String) (partitionID : Nat) :
    List (Message O) :=
  (((mb.topics.lookup topicName).bind (·.partitions[partitionID]?)).map (·.messages)).getD []

def pending (mb : PartitionedMessageBus O) (groupID topicName : String) (partitionID : Nat) :
    List (Message O) :=
  (messagesOf mb topicName partitionID).filter fun msg =>
    lastOffset mb groupID topicName partitionID ≤ msg.offset

/-- Every partition numbers its messages, and the messages name their partition. -/
structure NumberedPartition (topicName : String) (partitionID : Nat) (partition : Partition O) :
    Prop where
  upcoming : partition.offset = partition.messages.length
  placed : ∀ (i : Nat) (msg : Message O), partition.messages[i]? = some msg →
    msg.topic = topicName ∧ msg.partition = partitionID ∧ msg.offset = i

def Numbered (mb : PartitionedMessageBus O) : Prop :=
  ∀ topicName partitionID partition,
    (mb.topics.lookup topicName).bind (·.partitions[partitionID]?) = some partition →
    NumberedPartition topicName partitionID partition

section

variable {mb : PartitionedMessageBus O} (inv : Numbered mb)
include inv

theorem Numbered.of_topics {next} (eq : next.topics = mb.topics) : Numbered next := by
  unfold Numbered
  rwa [eq]

theorem Numbered.getElem {i} (hit : (messagesOf mb t p)[i]? = some m) :
    m.topic = t ∧ m.partition = p ∧ m.offset = i := by
  unfold messagesOf at hit
  cases present : (mb.topics.lookup t).bind (·.partitions[p]?) with
  | none =>
    rw [present] at hit
    cases hit
  | some part =>
    rw [present] at hit
    exact (inv t p part present).placed i m hit

theorem Numbered.placed (mem : m ∈ messagesOf mb t p) : m.topic = t ∧ m.partition = p := by
  obtain ⟨i, hit⟩ := mem_iff_getElem?.mp mem
  exact ⟨(inv.getElem hit).1, (inv.getElem hit).2.1⟩

theorem Numbered.ordered (t p) : (messagesOf mb t p).Pairwise fun a b => a.offset < b.offset := by
  rw [pairwise_iff_getElem]
  intro i j lt inside' pre
  have x := inv.getElem (getElem?_eq_getElem lt)
  have y := inv.getElem (getElem?_eq_getElem inside')
  omega

theorem Numbered.pending_nodup (g t p) : (pending mb g t p).Nodup := by
  apply ((inv.ordered t p).filter _).imp
  rintro x y pre rfl
  exact Nat.lt_irrefl _ pre

omit inv

theorem consumed_consumeOrLog {s} (inv : Numbered s.mb) (g : String) (attempts : Attempts O) :
    ∃ good bad, Consumed g t p s (consumeOrLog g attempts s t p) (pending s.mb g t p) good bad := by
  have ord := (inv.ordered t p).filter fun m => lastOffset s.mb g t p ≤ m.offset
  cases present : (s.mb.topics.lookup t).bind (·.partitions[p]?) with
  | none =>
    simp only [consumeOrLog, consumePartition, pending, messagesOf, present]
    exact ⟨[], [], consumed_nil s⟩
  | some part =>
    simp only [messagesOf, present, Option.map_some, Option.getD_some] at ord
    simp only [consumeOrLog, consumePartition, pending, messagesOf, present, Option.map_some,
      Option.getD_some]
    apply consumed_foldl attempts ord
    intro m mem
    exact of_decide_eq_true (mem_filter.mp mem).2

end

variable {group : ConsumerGroup} {c : String} {order : List (String × List Nat)}

/-- The partitions in the order of the two loops. -/
def places (order : List (String × List Nat)) : List (String × Nat) :=
  order.flatMap fun visit => visit.2.map (Prod.mk visit.1)

theorem consumeAssigned_eq (g) (attempts : Attempts O) (s) (order : List (String × List Nat)) :
    consumeAssigned g attempts s order =
      (places order).foldl (fun s place => consumeOrLog g attempts s place.1 place.2) s := by
  rw [places, foldl_flatMap]
  simp only [foldl_map]
  rfl

theorem Visits.nodup (visits : Visits group c order) : (places order).Nodup := by
  rw [places, nodup_flatMap]
  constructor
  · intro visit mem
    exact (visits.2 visit mem).1.map (Prod.mk_right_injective visit.1)
  · apply (pairwise_map.mp visits.1.1).imp
    intro x y ne place left right
    obtain ⟨_, -, rfl⟩ := mem_map.mp left
    obtain ⟨_, -, eq⟩ := mem_map.mp right
    exact ne (congrArg Prod.fst eq).symm

theorem Visits.mem (visits : Visits group c order) {t p} (mem : p ∈ assigned group c t) :
    (t, p) ∈ places order := by
  have listed : t ∈ order.map Prod.fst := by
    rw [visits.1.mem_iff, ← Finmap.lookup_isSome]
    unfold assigned at mem
    split at mem
    · cases mem
    next partitions hit =>
      rw [hit]
      rfl
  obtain ⟨visit, visited, rfl⟩ := mem_map.mp listed
  rw [← (visits.2 visit visited).2, mem_toFinset] at mem
  exact mem_flatMap.mpr ⟨visit, visited, mem_map_of_mem mem⟩

section

variable [DecidableEq O]

/-- The step did nothing to the partition, nor to the outcomes of its messages. -/
structure Unaffected (groupID topicName : String) (partitionID : Nat) (s next : State O) :
    Prop where
  topics : next.mb.topics = s.mb.topics
  groups : next.mb.groups = s.mb.groups
  offset : lastOffset next.mb groupID topicName partitionID =
    lastOffset s.mb groupID topicName partitionID
  handled : ∀ msg : Message O, msg.topic = topicName → msg.partition = partitionID →
    next.handled.count msg = s.handled.count msg
  dlq : ∀ msg : Message O, msg.topic = topicName → msg.partition = partitionID →
    next.dlq.count msg = s.dlq.count msg

theorem Consumed.unaffected {topic part good bad} (inv : Numbered s.mb)
    (consumed : Consumed g topic part s next (pending s.mb g topic part) good bad)
    (other : (t, p) ≠ (topic, part)) : Unaffected g t p s next := by
  have absent : ∀ m : Message O, m.topic = t → m.partition = p → m ∉ good ++ bad := by
    rintro m rfl rfl mem
    have placed := inv.placed (mem_of_mem_filter (consumed.divided.mem_iff.mp mem))
    exact other (Prod.ext placed.1 placed.2)
  refine ⟨consumed.topics, consumed.groups, consumed.offsets _ _ other, ?_, ?_⟩
  · intro m topic part
    rw [consumed.handled, count_append, count_eq_zero_of_not_mem fun mem =>
      absent m topic part (mem_append_left _ mem)]
    rfl
  · intro m topic part
    rw [consumed.dlq, count_append, count_eq_zero_of_not_mem fun mem =>
      absent m topic part (mem_append_right _ mem)]
    rfl

theorem Unaffected.trans {middle} (x : Unaffected g t p s middle)
    (y : Unaffected g t p middle next) :
    Unaffected g t p s next where
  topics := y.topics.trans x.topics
  groups := y.groups.trans x.groups
  offset := y.offset.trans x.offset
  handled msg topic part :=
    (y.handled msg topic part).trans (x.handled msg topic part)
  dlq msg topic part := (y.dlq msg topic part).trans (x.dlq msg topic part)

theorem unaffected_foldl (g) (attempts : Attempts O) {visited : List (String × Nat)}
    (ne : (t, p) ∉ visited) (inv : Numbered s.mb) :
    Unaffected g t p s
      (visited.foldl (fun s place => consumeOrLog g attempts s place.1 place.2) s) := by
  induction visited generalizing s with
  | nil => exact ⟨rfl, rfl, rfl, fun _ _ _ => rfl, fun _ _ _ => rfl⟩
  | cons place visited ih =>
    obtain ⟨other, ne⟩ := not_or.mp (mem_cons.not.mp ne)
    obtain ⟨good, bad, consumed⟩ := consumed_consumeOrLog inv g attempts
    have x := consumed.unaffected inv other
    exact x.trans (ih ne (inv.of_topics x.topics))

theorem consumeAssigned_split (g attempts) (inv : Numbered s.mb) {group : ConsumerGroup}
    {c : String} {order : List (String × List Nat)} (visits : Visits group c order)
    (mem : p ∈ assigned group c t) :
    ∃ pre after good bad, Unaffected g t p s pre ∧ Consumed g t p pre after
        (pending pre.mb g t p) good bad ∧
      Unaffected g t p after (consumeAssigned g attempts s order) := by
  obtain ⟨x, last, split⟩ := append_of_mem (visits.mem mem)
  have nodup := visits.nodup
  rw [split, nodup_middle, nodup_cons, mem_append, not_or] at nodup
  obtain ⟨⟨notFirst, notLast⟩, -⟩ := nodup
  rw [consumeAssigned_eq, split, foldl_append, foldl_cons]
  have pre := unaffected_foldl g attempts notFirst inv
  have numbered' := inv.of_topics pre.topics
  obtain ⟨good, bad, consumed⟩ := consumed_consumeOrLog numbered' g attempts
  exact ⟨_, _, good, bad, pre, consumed,
    unaffected_foldl g attempts notLast (numbered'.of_topics consumed.topics)⟩

end

variable {mb t : PartitionedMessageBus O} {req : Request O} {time : Int} {topic : Topic O}
  {part : Partition O}

theorem Numbered.send (inv : Numbered mb) (sent : Sent mb req time t topic p part) :
    Numbered t := by
  intro name index changed found
  rw [sent.partitions] at found
  split at found
  next eq =>
    obtain ⟨rfl, rfl⟩ := eq
    cases found
    have old := inv req.topicName index part (by rw [sent.found]; exact sent.present)
    refine ⟨by simp [Partition.append, old.upcoming], fun i m hit => ?_⟩
    simp only [Partition.append, getElem?_append] at hit
    split at hit
    · exact old.placed i m hit
    · rw [getElem?_singleton] at hit
      obtain ⟨last, rfl⟩ := guard_some.mp hit
      refine ⟨rfl, rfl, ?_⟩
      rw [newMessage, old.upcoming]
      dsimp only
      omega
  · exact inv name index changed found

theorem Numbered.newMessage_not_mem (inv : Numbered mb) (sent : Sent mb req time t topic p part) :
    newMessage req p part.offset time ∉ messagesOf mb req.topicName p := by
  have hit : (mb.topics.lookup req.topicName).bind (·.partitions[p]?) = some part := by
    rw [sent.found]
    exact sent.present
  intro listed
  obtain ⟨i, found⟩ := mem_iff_getElem?.mp listed
  have lt := (List.getElem?_eq_some_iff.mp found).1
  have off := (inv.getElem found).2.2
  rw [newMessage, (inv _ _ part hit).upcoming] at off
  rw [messagesOf, hit] at lt
  dsimp only [Option.map_some, Option.getD_some] at off lt
  omega

theorem numbered_new : Numbered (newPartitionedMessageBus : PartitionedMessageBus O) := by
  intro name index part hit
  cases hit

theorem Numbered.createTopic (inv : Numbered mb) {name numPartitions}
    (made : createTopic mb name numPartitions = .ok t) : Numbered t := by
  obtain ⟨-, rfl⟩ := createTopic_ok made
  intro x index part found
  rw [GoMap.lookup_insert_ite] at found
  split at found
  · obtain rfl := eq_of_mem_replicate (mem_of_getElem? found)
    exact ⟨rfl, fun i m hit => by cases hit⟩
  · exact inv x index part found

theorem messagesOf_send (sent : Sent mb req time t topic p part) (name index) :
    messagesOf t name index = if name = req.topicName ∧ index = p then
      messagesOf mb name index ++ [newMessage req p part.offset time]
    else messagesOf mb name index := by
  rw [messagesOf, sent.partitions]
  split
  next eq =>
    obtain ⟨rfl, rfl⟩ := eq
    rw [messagesOf, sent.found, Option.bind_some, sent.present]
    rfl
  · rfl

section

variable [DecidableEq O] (groupID consumerID topicName : String) (partitionID : Nat)

/-- Each message of the partition was handled at most once, is at most once in the dead letter
queue, and never both. -/
def OneOutcome (s : State O) : Prop :=
  ∀ msg ∈ messagesOf s.mb topicName partitionID,
    s.handled.count msg ≤ 1 ∧ s.dlq.count msg ≤ 1 ∧ ¬ (msg ∈ s.handled ∧ msg ∈ s.dlq)

/-- No message from the committed offset on is in the dead letter queue. -/
def Clean (s : State O) : Prop :=
  ∀ msg ∈ messagesOf s.mb topicName partitionID,
    lastOffset s.mb groupID topicName partitionID ≤ msg.offset → msg ∉ s.dlq

/-- A call of the consumer finds nothing to do that was given up before. -/
def Settled (s : State O) : Op O → Prop
  | .send _ _ => True
  | .consume order _ => (∀ group ∈ s.mb.groups.lookup groupID, Visits group consumerID order) →
      Clean groupID topicName partitionID s

instance (s : State O) : Decidable (Clean groupID topicName partitionID s) :=
  inferInstanceAs (Decidable (∀ msg ∈ messagesOf s.mb topicName partitionID, _ → _))

instance (s : State O) : DecidablePred (Settled groupID consumerID topicName partitionID s)
  | .send _ _ => isTrue trivial
  | .consume _ _ => inferInstanceAs (Decidable (_ → _))

structure Sound (s : State O) : Prop where
  numbered : Numbered s.mb
  owned : ∃ group, s.mb.groups.lookup groupID = some group ∧
    (group.consumers.lookup consumerID).isSome ∧ partitionID ∈ assigned group consumerID topicName
  known : ∀ msg ∈ s.handled ++ s.dlq, msg.topic = topicName → msg.partition = partitionID →
    msg ∈ messagesOf s.mb topicName partitionID
  below : ∀ msg ∈ s.handled, msg.topic = topicName → msg.partition = partitionID →
    msg.offset < lastOffset s.mb groupID topicName partitionID
  once : ∀ msg ∈ messagesOf s.mb topicName partitionID,
    s.handled.count msg + s.dlq.count msg ≤ 1

variable {t : String}

theorem oneOutcome_iff : OneOutcome t p s ↔
    ∀ m ∈ messagesOf s.mb t p, s.handled.count m + s.dlq.count m ≤ 1 := by
  apply forall₂_congr
  intro m _
  rw [← count_pos_iff, ← count_pos_iff]
  omega

theorem Sound.unaffected (inv : Sound g c t p s) (eq : Unaffected g t p s next) :
    Sound g c t p next := by
  have ms : messagesOf next.mb t p = messagesOf s.mb t p := by
    rw [messagesOf, eq.topics, messagesOf]
  refine ⟨inv.numbered.of_topics eq.topics, ?_, ?_, ?_, ?_⟩
  · rw [eq.groups]
    exact inv.owned
  · intro m mem topic part
    rw [ms]
    apply inv.known m ?_ topic part
    rw [← count_pos_iff, count_append] at mem ⊢
    rwa [eq.handled m topic part, eq.dlq m topic part] at mem
  · intro m mem topic part
    rw [eq.offset]
    apply inv.below m ?_ topic part
    rwa [← count_pos_iff, ← eq.handled m topic part, count_pos_iff]
  · intro m mem
    rw [ms] at mem
    obtain ⟨topic, part⟩ := inv.numbered.placed mem
    rw [eq.handled m topic part, eq.dlq m topic part]
    exact inv.once m mem

theorem Sound.send (inv : Sound g c t p s) {req time mb topic index part}
    (sent : Sent s.mb req time mb topic index part) : Sound g c t p { s with mb } := by
  have grown : messagesOf s.mb t p ⊆ messagesOf mb t p := by
    rw [messagesOf_send sent]
    split
    · exact subset_append_left _ _
    · exact List.Subset.refl _
  have off : lastOffset mb g t p = lastOffset s.mb g t p := by
    rw [sent.result]
    rfl
  refine ⟨inv.numbered.send sent, ?_, ?_, ?_, ?_⟩
  · rw [sent.result]
    exact inv.owned
  · intro m mem topic part
    exact grown (inv.known m mem topic part)
  · intro m mem topic part
    rw [off]
    exact inv.below m mem topic part
  · intro m mem
    dsimp only at mem ⊢
    rw [messagesOf_send sent] at mem
    split at mem
    next eq =>
      obtain ⟨rfl, rfl⟩ := eq
      rcases mem_append.mp mem with old | new
      · exact inv.once m old
      · -- nothing has happened to the new message yet, since what has an outcome is listed
        obtain rfl := mem_singleton.mp new
        have none := count_eq_zero_of_not_mem fun pre =>
          inv.numbered.newMessage_not_mem sent (inv.known _ pre rfl rfl)
        rw [count_append] at none
        omega
    · exact inv.once m mem

/-- Each pending message of the partition gets one more outcome. -/
theorem Consumed.count {batch} (consumed : Consumed g t p s next batch good bad) (m) :
    next.handled.count m + next.dlq.count m =
      s.handled.count m + s.dlq.count m + batch.count m := by
  rw [← consumed.divided.count_eq m, consumed.handled, consumed.dlq, count_append,
    count_append, count_append]
  omega

theorem Sound.consumed (inv : Sound g c t p s) (clean : Clean g t p s)
    (consumed : Consumed g t p s next (pending s.mb g t p) good bad) : Sound g c t p next := by
  have ms : messagesOf next.mb t p = messagesOf s.mb t p := by
    rw [messagesOf, consumed.topics, messagesOf]
  have adv := consumed.advanced
  refine ⟨inv.numbered.of_topics consumed.topics, ?_, ?_, ?_, ?_⟩
  · rw [consumed.groups]
    exact inv.owned
  · intro m mem topic part
    rw [ms]
    rw [← count_pos_iff, count_append, consumed.count] at mem
    by_cases new : m ∈ pending s.mb g t p
    · exact mem_of_mem_filter new
    · apply inv.known m ?_ topic part
      rw [count_eq_zero_of_not_mem new] at mem
      rwa [← count_pos_iff, count_append]
  · intro m mem topic part
    rw [consumed.handled, mem_append] at mem
    rcases mem with old | new
    · have := inv.below m old topic part
      omega
    · exact consumed.committed m new
  · intro m mem
    rw [ms] at mem
    have pre := inv.once m mem
    rw [consumed.count]
    by_cases new : m ∈ pending s.mb g t p
    · -- a pending message was neither handled nor given up before
      have came := of_decide_eq_true (mem_filter.mp new).2
      obtain ⟨topic, part⟩ := inv.numbered.placed mem
      have unhandled : m ∉ s.handled := by
        intro handled
        have := inv.below m handled topic part
        omega
      have single := nodup_iff_count_le_one.mp (inv.numbered.pending_nodup g t p) m
      rw [count_eq_zero_of_not_mem unhandled, count_eq_zero_of_not_mem (clean m mem came)]
      omega
    · rw [count_eq_zero_of_not_mem new]
      omega

theorem step_consume (inv : Sound g c t p s) (attempts)
    (visits : ∀ group ∈ s.mb.groups.lookup g, Visits group c order) :
    ∃ pre after good bad final, step g c s (.consume order attempts) = some final ∧
      Unaffected g t p s pre ∧
      Consumed g t p pre after (pending pre.mb g t p) good bad ∧
      Unaffected g t p after final := by
  obtain ⟨group, found, consumer, mem⟩ := inv.owned
  obtain ⟨consumer, hit⟩ := Option.isSome_iff_exists.mp consumer
  obtain ⟨pre, after, good, bad, x, consumed, last⟩ :=
    consumeAssigned_split g attempts inv.numbered (visits group found) mem
  refine ⟨pre, after, good, bad, _, ?_, x, consumed, last⟩
  rw [step, if_pos visits]
  simp only [consumeWithRetry, found, hit]

theorem Clean.unaffected (clean : Clean g t p s) (inv : Numbered s.mb)
    (eq : Unaffected g t p s next) : Clean g t p next := by
  intro m mem came
  rw [messagesOf, eq.topics, ← messagesOf] at mem
  rw [eq.offset] at came
  obtain ⟨topic, part⟩ := inv.placed mem
  rw [← count_eq_zero, eq.dlq m topic part, count_eq_zero]
  exact clean m mem came

theorem step_sound (inv : Sound g c t p s) {op} (settled : Settled g c t p s op)
    (took : step g c s op = some next) : Sound g c t p next := by
  cases op with
  | send req rd =>
    obtain ⟨res, ran, rfl⟩ := Option.map_eq_some_iff.mp took
    cases res with
    | error err => exact inv
    | ok mb =>
      obtain ⟨topic, index, part, sent⟩ := send_ok ran
      exact inv.send sent
  | consume order attempts =>
    have visits := (Option.ite_none_right_eq_some.mp took).1
    obtain ⟨pre, after, good, bad, final, ran, x, consumed, last⟩ :=
      step_consume inv attempts visits
    obtain rfl := Option.some.inj (ran.symm.trans took)
    have clean := (settled visits).unaffected inv.numbered x
    exact ((inv.unaffected x).consumed clean consumed).unaffected last

/-- A message that is consumed again after it was given up gets a second outcome. -/
theorem settled_of_oneOutcome (inv : Sound g c t p s) {attempts}
    (good : ∀ next, step g c s (.consume order attempts) = some next → OneOutcome t p next) :
    Settled g c t p s (.consume order attempts) := by
  intro visits m mem came givenUp
  obtain ⟨pre, after, _, _, final, ran, x, consumed, last⟩ :=
    step_consume inv attempts visits
  obtain ⟨topic, part⟩ := inv.numbered.placed mem
  have again : m ∈ pending pre.mb g t p := by
    rw [pending, x.offset, messagesOf, x.topics, ← messagesOf]
    exact mem_filter.mpr ⟨mem, decide_eq_true came⟩
  have outcomes := oneOutcome_iff.mp (good final ran) m (by
    rw [messagesOf, last.topics, consumed.topics, x.topics, ← messagesOf]
    exact mem)
  rw [last.handled m topic part, last.dlq m topic part, consumed.count,
    x.handled m topic part, x.dlq m topic part] at outcomes
  have once := count_pos_iff.mpr givenUp
  have twice := count_pos_iff.mpr again
  omega

/-- The messages of a partition that the consumer owns have one outcome at most throughout a run
exactly when every call of the consumer finds no message of the dead letter queue left to
consume. -/
theorem one_outcome_iff (groupID consumerID topicName : String) (partitionID : Nat)
    {mb : PartitionedMessageBus O} (numbered : Numbered mb) {group : ConsumerGroup}
    (found : mb.groups.lookup groupID = some group)
    (joined : (group.consumers.lookup consumerID).isSome)
    (owned : partitionID ∈ assigned group consumerID topicName) (ops : List (Op O)) :
    Throughout (step groupID consumerID) (OneOutcome topicName partitionID) ⟨mb, [], []⟩ ops ↔
      Along (step groupID consumerID) (Settled groupID consumerID topicName partitionID)
        ⟨mb, [], []⟩ ops := by
  have start : Sound groupID consumerID topicName partitionID (⟨mb, [], []⟩ : State O) :=
    ⟨numbered, ⟨group, found, joined, owned⟩, fun _ member => absurd member not_mem_nil,
      fun _ member => absurd member not_mem_nil, fun _ _ => Nat.zero_le _⟩
  apply throughout_iff_along (Sound groupID consumerID topicName partitionID) start
    (fun s sound => oneOutcome_iff.mpr sound.once) (fun _ => True)
    (fun s op next sound _ settled stepped => step_sound sound settled stepped) ?_
    fun _ _ => trivial
  intro s op sound _ good
  cases op with
  | send request reading => trivial
  | consume order attempts => exact settled_of_oneOutcome sound good

end

def oneConsumer : PartitionedMessageBus Unit where
  topics := (∅ : GoMap String (Topic Unit)).insert "orders" ⟨List.replicate 1 ⟨[], 0⟩⟩
  groups := (∅ : GoMap String ConsumerGroup).insert "g"
    ⟨"g", (∅ : GoMap String Consumer).insert "c" ⟨"c", "g", ["orders"], 0, true⟩,
      (∅ : GoMap String (GoMap Nat String)).insert "orders"
        ((∅ : GoMap Nat String).insert 0 "c"), 1⟩
  offsets := ∅

def sendOrder (value : UInt8) : Op Unit :=
  .send ⟨"orders", [1], [value], ∅, ()⟩ ⟨0, 0⟩

def consumeOrders (attempts : Attempts Unit) : Op Unit :=
  .consume [("orders", [0])] attempts

/-- The first of two messages is given up and the second handled, then a third is handled. -/
theorem one_outcome_iff_between :
    (exec (step "g" "c") ⟨oneConsumer, [], []⟩ [sendOrder 1, sendOrder 2,
      consumeOrders fun msg _ => msg.offset = 1, sendOrder 3, consumeOrders fun _ _ => true]).map
      (fun s => (s.handled.map (·.offset), s.dlq.map (·.offset))) = some ([1, 2], [0]) ∧
    Throughout (step "g" "c") (OneOutcome "orders" 0) ⟨oneConsumer, [], []⟩ [sendOrder 1,
      sendOrder 2, consumeOrders fun msg _ => msg.offset = 1, sendOrder 3,
      consumeOrders fun _ _ => true] := by
  have created : createTopic newPartitionedMessageBus "orders" 1 =
      .ok { newPartitionedMessageBus with topics := oneConsumer.topics } := rfl
  have numbered : Numbered oneConsumer := (numbered_new.createTopic created).of_topics rfl
  refine ⟨by decide, (one_outcome_iff "g" "c" "orders" 0 numbered
    (Finmap.lookup_insert _) (by decide) (by decide) _).mpr ?_⟩
  exact along_of_decide (by decide)

/-- A message that is given up as the last of its partition is consumed again: it goes to the
dead letter queue once more, or it is handled after all. -/
theorem given_up_message_consumed_again :
    (exec (step "g" "c") ⟨oneConsumer, [], []⟩ [sendOrder 1, consumeOrders fun _ _ => false,
      consumeOrders fun _ _ => false]).map
      (fun s => (s.handled.map (·.offset), s.dlq.map (·.offset))) = some ([], [0, 0]) ∧
    (exec (step "g" "c") ⟨oneConsumer, [], []⟩ [sendOrder 1, consumeOrders fun _ _ => false,
      consumeOrders fun _ _ => true]).map
      (fun s => (s.handled.map (·.offset), s.dlq.map (·.offset))) = some ([0], [0]) := by
  decide

end AsyncPractice.FaultTolerantMessageBus
