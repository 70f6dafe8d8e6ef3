import AsyncPractice.BusExample

/- What the calls do to a MessageBusExample, and what holds after every run: Publish appends to one
partition, consumePartition reads on from the committed offset, and the other calls touch neither
messages nor offsets. -/
namespace AsyncPractice.BusExample

open GoMap List Runs
open MessageBus (Reading)

theorem committed_commitOffset (mb g group p part offset) :
    committed (commitOffset mb g p offset) group part = if group = g ∧ part = p then offset
      else committed mb group part := by
  simp only [committed, commitOffset, lookup_insert_ite]
  by_cases same : group = g
  · subst same
    simp only [if_true, Option.getD_some, lookup_insert_ite, true_and]
    split <;> rfl
  · simp only [same, if_false, false_and]

variable {s t : State} {g : String} {out : Message → Bool} {p : Nat} {ms : List Message}

/-- What the loop over the messages read does to the state, and to the committed offset: it has then
passed what it had passed before, and every message up to the last one handled. -/
structure Consumed (s : State) (groupID : String) (outcome : Message → Bool) (partitionID : Nat)
    (messages : List Message) (next : State) : Prop where
  topics : next.bus.topics = s.bus.topics
  groups : next.bus.consumerGroups = s.bus.consumerGroups
  published : next.published = s.published
  handled : next.handled = s.handled ++ (messages.filter outcome).map (groupID, ·)
  elsewhere : ∀ group partition, ¬(group = groupID ∧ partition = partitionID) →
    committed next.bus group partition = committed s.bus group partition
  passed : ∀ offset, offset < committed next.bus groupID partitionID ↔
    offset < committed s.bus groupID partitionID ∨
      ∃ msg ∈ messages, outcome msg = true ∧ offset ≤ msg.offset
  dlq : (∀ msg ∈ messages, msg.attempts = 0) → next.bus.dlq = s.bus.dlq

theorem Consumed.refl : Consumed s g out p [] s := by
  constructor <;> simp

theorem Consumed.append {middle first second} (front : Consumed s g out p first middle)
    (back : Consumed middle g out p second t) :
    Consumed s g out p (first ++ second) t where
  topics := back.topics.trans front.topics
  groups := back.groups.trans front.groups
  published := back.published.trans front.published
  handled := by
    rw [back.handled, front.handled, filter_append, map_append, append_assoc]
  elsewhere group part apart :=
    (back.elsewhere group part apart).trans (front.elsewhere group part apart)
  passed offset := by
    rw [back.passed, front.passed]
    simp only [mem_append, or_and_right, exists_or, or_assoc]
  dlq unused := by
    rw [back.dlq fun m mem => unused m (mem_append_right _ mem)]
    exact front.dlq fun m mem => unused m (mem_append_left _ mem)

theorem consumed_process {m} (ahead : committed s.bus g p ≤ m.offset) :
    Consumed s g out p [m] (process g out p s m) := by
  unfold process
  by_cases succeeds : out m = true
  · rw [if_pos succeeds]
    refine ⟨rfl, rfl, rfl, by simp [succeeds], ?_, ?_, fun _ => rfl⟩
    · intro group part ne
      rw [committed_commitOffset, if_neg ne]
    · intro off
      rw [committed_commitOffset, if_pos ⟨rfl, rfl⟩]
      simp only [mem_singleton, exists_eq_left, succeeds, true_and]
      omega
  · rw [if_neg succeeds]
    unfold handleFailedMessage
    by_cases dead : m.attempts + 1 ≥ 3
    · simp only [dead, if_true]
      refine ⟨rfl, rfl, rfl, by simp [succeeds], fun _ _ _ => rfl, ?_, ?_⟩
      · intro off
        simp only [mem_singleton, exists_eq_left, succeeds, false_and, or_false, reduceCtorEq]
        rfl
      · intro unused
        have := unused m mem_cons_self
        omega
    · simp only [dead, if_false]
      refine ⟨rfl, rfl, rfl, by simp [succeeds], fun _ _ _ => rfl, ?_, fun _ => rfl⟩
      intro off
      simp only [mem_singleton, exists_eq_left, succeeds, false_and, or_false, reduceCtorEq]

theorem consumed_foldl (sorted : ms.Pairwise fun x y => x.offset < y.offset)
    (ahead : ∀ m ∈ ms, committed s.bus g p ≤ m.offset) :
    Consumed s g out p ms (ms.foldl (process g out p) s) := by
  -- Each message read is ahead of the offset its predecessors have committed.
  induction ms generalizing s with
  | nil => exact Consumed.refl
  | cons m ms ih =>
    obtain ⟨later, sorted⟩ := pairwise_cons.mp sorted
    have x : Consumed s g out p [m] _ :=
      consumed_process (ahead m mem_cons_self)
    refine x.append (ih sorted fun other mem => ?_)
    have old := ahead other (mem_cons_of_mem _ mem)
    have newer := later other mem
    have limit := (x.passed other.offset).mp
    simp only [mem_singleton, exists_eq_left] at limit
    omega

section

variable {mb after : MessageBusExample} {msg : Message} {next : State} {e : Event}

/-- What a Publish that returns no error does. -/
structure Appends (mb : MessageBusExample) (message : Message) (after : MessageBusExample) :
    Prop where
  unused : message.attempts = 0
  partition : ∃ partition, partitionOf mb message.topic message.partition = some partition ∧
    message.offset = partition.offset ∧
    ∀ topicName partitionID, partitionOf after topicName partitionID =
      if topicName = message.topic ∧ partitionID = message.partition then
        some (partition.append message)
      else partitionOf mb topicName partitionID
  groups : after.consumerGroups = mb.consumerGroups
  offsets : after.offsets = mb.offsets
  dlq : after.dlq = mb.dlq

theorem partitionOf_insert (t : String) (topic : Topic) (name : String) (p : Nat) :
    partitionOf { mb with topics := mb.topics.insert t topic } name p =
      if name = t then topic.partitions[p]?
      else partitionOf mb name p := by
  simp only [partitionOf, lookup_insert_ite]
  split <;> rfl

theorem appends_of_publish {t k v headers reading}
    (sent : publish mb t k v headers reading = some (.ok (after, msg))) :
    Appends mb msg after := by
  unfold publish at sent
  cases found : mb.topics.lookup t with
  | none => simp [found] at sent
  | some topic =>
    simp only [found, Option.bind_eq_some_iff, Option.ite_none_left_eq_some,
      Option.map_eq_some_iff, Except.ok.injEq, Prod.mk.injEq] at sent
    obtain ⟨index, -, -, part, hit, rfl, rfl⟩ := sent
    refine ⟨rfl, ⟨part, ?_, rfl, ?_⟩, rfl, rfl, rfl⟩
    · simp only [partitionOf, found, Option.bind_some, hit]
    · intro name p
      rw [partitionOf_insert]
      by_cases same : name = t
      · subst same
        have lt := (List.getElem?_eq_some_iff.mp hit).1
        simp only [if_true, true_and, getElem?_set, lt, partitionOf, found,
          Option.bind_some, eq_comm]
      · simp only [same, if_false, false_and]

/-- The groups and consumers are under their ids, and only groups have committed offsets. -/
structure Registered (mb : MessageBusExample) : Prop where
  groups : ∀ groupID group, mb.consumerGroups.lookup groupID = some group → group.id = groupID
  consumers : ∀ groupID group, mb.consumerGroups.lookup groupID = some group →
    ∀ consumerID consumer, group.consumers.lookup consumerID = some consumer →
      consumer.id = consumerID
  offsets : ∀ groupID, mb.consumerGroups.lookup groupID = none →
    ∀ partitionID, committed mb groupID partitionID = 0

theorem Registered.congr (reg : Registered mb) (groups : after.consumerGroups = mb.consumerGroups)
    (offsets : ∀ g p, mb.consumerGroups.lookup g = none → committed after g p = committed mb g p) :
    Registered after := by
  refine ⟨groups ▸ reg.groups, groups ▸ reg.consumers, ?_⟩
  intro g absent p
  rw [groups] at absent
  rw [offsets g p absent, reg.offsets g absent p]

theorem Registered.insert (reg : Registered mb) {g group}
    (groups : after.consumerGroups = mb.consumerGroups.insert g group) (named : group.id = g)
    (joined : ∀ c consumer, group.consumers.lookup c = some consumer → consumer.id = c)
    (offsets : ∀ x p, committed after x p = committed mb x p) : Registered after := by
  refine ⟨?_, ?_, ?_⟩
  · intro x found hit
    rw [groups] at hit
    rcases lookup_insert_cases hit with ⟨rfl, rfl⟩ | ⟨-, pre⟩
    · exact named
    · exact reg.groups x found pre
  · intro x found hit
    rw [groups] at hit
    rcases lookup_insert_cases hit with ⟨rfl, rfl⟩ | ⟨-, pre⟩
    · exact joined
    · exact reg.consumers x found pre
  · intro x absent p
    rw [groups, lookup_insert_ite] at absent
    split at absent
    · cases absent
    · rw [offsets x p, reg.offsets x absent p]

/-- The bus of a call that neither publishes nor consumes: it may have new partitions, all empty. -/
structure Quiet (mb after : MessageBusExample) : Prop where
  registered : Registered after
  partitions : ∀ topicName partitionID,
    partitionOf after topicName partitionID = partitionOf mb topicName partitionID ∨
      (partitionOf mb topicName partitionID = none ∧
        ∃ id, partitionOf after topicName partitionID = some ⟨id, [], 0⟩)
  offsets : ∀ groupID partitionID,
    committed after groupID partitionID = committed mb groupID partitionID
  dlq : after.dlq = mb.dlq

theorem Quiet.refl (reg : Registered mb) : Quiet mb mb :=
  ⟨reg, fun _ _ => .inl rfl, fun _ _ => rfl, rfl⟩

theorem Quiet.messagesOf (quiet : Quiet mb after) (t p) :
    messagesOf after t p = messagesOf mb t p := by
  unfold BusExample.messagesOf
  rcases quiet.partitions t p with same | ⟨absent, id, added⟩
  · rw [same]
  · rw [absent, added]
    rfl

inductive Moves (s : State) : Event → State → Prop
  | quiet (event : Event) {bus : MessageBusExample} (quiet : Quiet s.bus bus) :
      Moves s event { s with bus }
  | publish (topicName : String) (key value : Bytes) (headers : GoMap String String)
      (reading : Reading) {bus : MessageBusExample} {message : Message}
      (appends : Appends s.bus message bus) :
      Moves s (.publish topicName key value headers reading)
        { s with bus, published := s.published ++ [message] }
  | consume (groupID : String) (outcome : Message → Bool) (topicName : String) (partitionID : Nat)
      {group : ConsumerGroup} (found : s.bus.consumerGroups.lookup groupID = some group) :
      Moves s (.consumePartition groupID outcome topicName partitionID)
        (consumePartition s groupID outcome topicName partitionID)

variable (reg : Registered mb)
include reg

theorem quiet_createTopic (name numPartitions)
    (made : createTopic mb name numPartitions = .ok after) : Quiet mb after := by
  unfold createTopic at made
  split at made
  · cases made
  next absent =>
    rw [Option.not_isSome_iff_eq_none] at absent
    obtain rfl := Except.ok.inj made
    refine ⟨reg.congr rfl fun _ _ _ => rfl, fun t p => ?_, fun _ _ => rfl, rfl⟩
    rw [partitionOf_insert]
    split
    next eq =>
      have none : partitionOf mb t p = none := by
        rw [partitionOf, eq, absent]
        rfl
      by_cases lt : p < numPartitions
      · exact .inr ⟨none, p, by simp [lt]⟩
      · exact .inl (by simp [none, lt])
    · exact .inl rfl

theorem quiet_createConsumerGroup (g) (made : createConsumerGroup mb g = .ok after) :
    Quiet mb after := by
  unfold createConsumerGroup at made
  split at made
  · cases made
  next absent =>
    rw [Option.not_isSome_iff_eq_none] at absent
    obtain rfl := Except.ok.inj made
    have offsets : ∀ x p, committed { mb with
        consumerGroups := mb.consumerGroups.insert g ⟨g, ∅, ∅, 0⟩
        offsets := mb.offsets.insert g ∅ } x p = committed mb x p := by
      intro x p
      by_cases same : x = g
      · rw [same, reg.offsets g absent]
        simp [committed]
      · simp only [committed, Finmap.lookup_insert_of_ne _ same]
    exact ⟨reg.insert rfl rfl (by simp) offsets, fun _ _ => .inl rfl, offsets, rfl⟩

theorem quiet_joinGroup (g c topics) (joined : joinGroup mb g c topics = .ok after) :
    Quiet mb after := by
  unfold joinGroup at joined
  split at joined
  · cases joined
  next group hit =>
    obtain rfl := Except.ok.inj joined
    refine ⟨reg.insert rfl (reg.groups g group hit) ?_ fun _ _ => rfl,
      fun _ _ => .inl rfl, fun _ _ => rfl, rfl⟩
    intro x consumer joined
    rcases lookup_insert_cases joined with ⟨rfl, rfl⟩ | ⟨-, pre⟩
    · rfl
    · exact reg.consumers g group hit x consumer pre

theorem quiet_rebalance (g ids names) : Quiet mb (rebalance mb g ids names) := by
  unfold rebalance
  split
  · exact Quiet.refl reg
  next group hit =>
    dsimp only
    split
    · exact Quiet.refl reg
    · exact ⟨reg.insert rfl (reg.groups g group hit) (reg.consumers g group hit) fun _ _ => rfl,
        fun _ _ => .inl rfl, fun _ _ => rfl, rfl⟩

omit reg

theorem moves_after (reg : Registered s.bus) (e) {result}
    (quiet : ∀ bus, result = .ok bus → Quiet s.bus bus) : Moves s e (s.after result) := by
  cases result with
  | error text => exact .quiet e (Quiet.refl reg)
  | ok bus => exact .quiet e (quiet bus rfl)

theorem moves_of_step (reg : Registered s.bus) (took : step s e = some next) :
    Moves s e next := by
  cases e with
  | createTopic name n =>
    cases took
    exact moves_after reg _ fun _ => quiet_createTopic reg name n
  | publish t k v headers rd =>
    obtain ⟨res, sent, rfl⟩ := Option.map_eq_some_iff.mp took
    cases res with
    | error text => exact .quiet _ (Quiet.refl reg)
    | ok res => exact .publish t k v headers rd (appends_of_publish sent)
  | createConsumerGroup g =>
    cases took
    exact moves_after reg _ fun _ => quiet_createConsumerGroup reg g
  | joinGroup g c topics =>
    cases took
    exact moves_after reg _ fun _ => quiet_joinGroup reg g c topics
  | rebalance g ids ns =>
    obtain ⟨-, rfl⟩ := guard_some.mp took
    exact .quiet _ (quiet_rebalance reg g ids ns)
  | consumePartition g out t p =>
    obtain ⟨hit, rfl⟩ := guard_some.mp took
    obtain ⟨group, hit⟩ := Option.isSome_iff_exists.mp hit
    exact .consume g out t p hit

end

section

variable {next : State} {e : Event} {es : List Event}

/-- Every partition holds exactly the messages published to it, in the order of their offsets, and
no message ever counts an attempt or gets into the dead letter queue. -/
structure Sound (s : State) : Prop where
  registered : Registered s.bus
  stored : ∀ topicName partitionID msg, msg ∈ messagesOf s.bus topicName partitionID ↔
    msg ∈ s.published ∧ msg.topic = topicName ∧ msg.partition = partitionID
  sorted : ∀ topicName partitionID, (messagesOf s.bus topicName partitionID).Pairwise
    fun first second => first.offset < second.offset
  below : ∀ topicName partitionID partition,
    partitionOf s.bus topicName partitionID = some partition →
      ∀ msg ∈ partition.messages, msg.offset < partition.offset
  unused : ∀ msg ∈ s.published, msg.attempts = 0
  dlq : s.bus.dlq = []

theorem sound_start : Sound start := by
  constructor
  · constructor <;> simp [start, newMessageBusExample, committed]
  all_goals simp [start, newMessageBusExample, messagesOf, partitionOf]

variable {t : String} {m : Message}

theorem mem_unread :
    m ∈ unread s g t p ↔ m ∈ messagesOf s.bus t p ∧ committed s.bus g p ≤ m.offset := by
  simp [unread]

variable (inv : Sound s)
include inv

theorem Sound.consumed (g out t p) :
    Consumed s g out p (unread s g t p) (consumePartition s g out t p) := by
  rw [consumePartition_eq]
  apply consumed_foldl
  · exact (inv.sorted t p).filter _
  · exact fun m mem => (mem_unread.mp mem).2

theorem Sound.mem_unread :
    m ∈ unread s g t p ↔ m ∈ s.published ∧ m.topic = t ∧ m.partition = p ∧
        committed s.bus g p ≤ m.offset := by
  rw [BusExample.mem_unread, inv.stored, and_assoc, and_assoc]

theorem Sound.mem_handled (g group out topic p m) :
    (g, m) ∈ (consumePartition s group out topic p).handled ↔ (g, m) ∈ s.handled ∨
        group = g ∧ m ∈ unread s g topic p ∧ out m = true := by
  rw [(inv.consumed group out topic p).handled, mem_append, mem_map]
  simp only [mem_filter, Prod.mk.injEq]
  constructor
  · rintro (old | ⟨_, ⟨mem, succeeds⟩, rfl, rfl⟩)
    · exact .inl old
    · exact .inr ⟨rfl, mem, succeeds⟩
  · rintro (old | ⟨rfl, mem, succeeds⟩)
    · exact .inl old
    · exact .inr ⟨m, ⟨mem, succeeds⟩, rfl, rfl⟩

theorem Sound.lt_committed (g group out topic part p offset) :
    offset < committed (consumePartition s group out topic p).bus g part ↔
      offset < committed s.bus g part ∨ group = g ∧ p = part ∧
          ∃ m ∈ unread s g topic part, out m = true ∧ offset ≤ m.offset := by
  have consumed := inv.consumed group out topic p
  by_cases same : g = group ∧ part = p
  · obtain ⟨rfl, rfl⟩ := same
    rw [consumed.passed]
    simp
  · rw [consumed.elsewhere g part same]
    grind

variable {bus : MessageBusExample} {msg : Message}

theorem Sound.lt_of_appends (appends : Appends s.bus msg bus) :
    ∀ m ∈ s.published, m.topic = msg.topic → m.partition = msg.partition →
      m.offset < msg.offset := by
  intro m old topic there
  obtain ⟨part, hit, off, -⟩ := appends.partition
  have stored := (inv.stored msg.topic msg.partition m).mpr ⟨old, topic, there⟩
  rw [messagesOf, hit] at stored
  rw [off]
  exact inv.below _ _ part hit m stored

theorem Sound.quiet (quiet : Quiet s.bus bus) :
    Sound { s with bus } where
  registered := quiet.registered
  stored t p m := by
    rw [quiet.messagesOf]
    exact inv.stored t p m
  sorted t p := by
    rw [quiet.messagesOf]
    exact inv.sorted t p
  below t p part present := by
    rcases quiet.partitions t p with same | ⟨-, id, added⟩
    · exact inv.below t p part (same ▸ present)
    · rw [added, Option.some.injEq] at present
      subst present
      simp
  unused := inv.unused
  dlq := quiet.dlq.trans inv.dlq

theorem Sound.publish (appends : Appends s.bus msg bus) :
    Sound { s with bus, published := s.published ++ [msg] } := by
  obtain ⟨part, hit, off, partitions⟩ := appends.partition
  have ms : ∀ t p, messagesOf bus t p = messagesOf s.bus t p ++
        if t = msg.topic ∧ p = msg.partition then [msg] else [] := by
    intro t p
    simp only [messagesOf, partitions]
    split
    next eq =>
      rw [eq.1, eq.2, hit]
      rfl
    · rw [append_nil]
  have pre := inv.below _ _ part hit
  refine ⟨?_, ?_, ?_, ?_, ?_, appends.dlq.trans inv.dlq⟩
  · refine inv.registered.congr appends.groups fun _ _ _ => ?_
    simp only [committed, appends.offsets]
  · intro t p m
    rw [ms, mem_append, inv.stored, mem_append, mem_singleton]
    split
    · grind
    · grind
  · intro t p
    rw [ms]
    split
    next eq =>
      refine pairwise_append.mpr ⟨inv.sorted _ _, pairwise_singleton _ _, ?_⟩
      intro x old y new
      rw [mem_singleton] at new
      rw [eq.1, eq.2, messagesOf, hit] at old
      rw [new, off]
      exact pre x old
    · rw [append_nil]
      exact inv.sorted _ _
  · intro t p other found m mem
    rw [partitions] at found
    split at found
    · cases found
      rcases mem_append.mp mem with old | new
      · exact Nat.lt_succ_of_lt (pre m old)
      · rw [mem_singleton.mp new, off]
        exact Nat.lt_succ_self _
    · exact inv.below _ _ other found m mem
  · exact forall_mem_snoc inv.unused appends.unused

theorem Sound.consume {group} (hit : s.bus.consumerGroups.lookup g = some group) (out t p) :
    Sound (consumePartition s g out t p) := by
  have consumed := inv.consumed g out t p
  have partitions : partitionOf (consumePartition s g out t p).bus = partitionOf s.bus := by
    funext name id
    rw [partitionOf, partitionOf, consumed.topics]
  refine ⟨?_, ?_, ?_, ?_, ?_, ?_⟩
  · refine inv.registered.congr consumed.groups fun x id absent => ?_
    refine consumed.elsewhere x id fun eq => ?_
    rw [eq.1, hit] at absent
    cases absent
  · unfold messagesOf
    rw [partitions, consumed.published]
    exact inv.stored
  · unfold messagesOf
    rw [partitions]
    exact inv.sorted
  · rw [partitions]
    exact inv.below
  · rw [consumed.published]
    exact inv.unused
  · rw [consumed.dlq, inv.dlq]
    intro m mem
    exact inv.unused m (inv.mem_unread.mp mem).1

theorem Sound.moves (moves : Moves s e next) : Sound next := by
  cases moves with
  | quiet e quiet => exact inv.quiet quiet
  | publish t k v headers rd appends => exact inv.publish appends
  | consume g out t p hit =>
    exact inv.consume hit out t p

omit inv

theorem sound_of_run (run : exec step start es = some s) : Sound s := by
  refine exec_invariant Sound sound_start ?_ run
  intro s e next inv took
  exact inv.moves (moves_of_step inv.registered took)

end

end AsyncPractice.BusExample
