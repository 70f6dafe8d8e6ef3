import AsyncPractice.BusExampleRuns

/- What becomes of messages whose handler fails. A failed message is read again as long as nothing
after it succeeds: a later success commits an offset beyond it, and the attempts that should lead it
into the dead letter queue are counted on a copy. -/
namespace AsyncPractice.BusExample

section

open List Runs

/-- The group reads no other topic. -/
def Reads (groupID topicName : String) : Event → Prop
  | .consumePartition group _ topic _ => group = groupID → topic = topicName
  | _ => True

/-- What the committed offset has passed was handled successfully or is in the dead letter queue. -/
def NoLoss (groupID topicName : String) (s : State) : Prop :=
  ∀ msg ∈ s.published, msg.topic = topicName →
    msg.offset < committed s.bus groupID msg.partition →
      (groupID, msg) ∈ s.handled ∨ ∃ dead ∈ s.bus.dlq, dead.id = msg.id

/-- In no call does the handler fail for a message and then succeed for a later one. -/
def Orderly (groupID : String) (s : State) : Event → Prop
  | .consumePartition group outcome topicName partitionID => group = groupID →
      ∀ first ∈ unread s groupID topicName partitionID,
        ∀ second ∈ unread s groupID topicName partitionID,
          first.offset ≤ second.offset → outcome second = true → outcome first = true
  | _ => True

/-- The committed offsets have passed exactly what was handled. -/
structure Exact (groupID topicName : String) (s : State) : Prop where
  sound : Sound s
  handled : ∀ msg ∈ s.published, msg.topic = topicName →
    ((groupID, msg) ∈ s.handled ↔ msg.offset < committed s.bus groupID msg.partition)
  known : ∀ msg, (groupID, msg) ∈ s.handled → msg ∈ s.published
  reached : ∀ partitionID offset, offset < committed s.bus groupID partitionID →
    ∃ msg ∈ s.published, msg.topic = topicName ∧ msg.partition = partitionID ∧ offset ≤ msg.offset

variable {groupID topicName : String} {s next : State} {event : Event} {events : List Event}
  {final : State}

theorem exact_start : Exact groupID topicName start :=
  ⟨sound_start, by simp [start], by simp [start], by simp [start, newMessageBusExample, committed]⟩

variable (exact : Exact groupID topicName s)
include exact

theorem Exact.noLoss : NoLoss groupID topicName s :=
  fun m mem topic ok => .inl ((exact.handled m mem topic).mpr ok)

variable {bus : MessageBusExample}

theorem Exact.quiet (quiet : Quiet s.bus bus) :
    Exact groupID topicName { s with bus } where
  sound := exact.sound.quiet quiet
  handled msg mem topic := by
    rw [quiet.offsets]
    exact exact.handled msg mem topic
  known := exact.known
  reached p offset passed := by
    rw [quiet.offsets] at passed
    exact exact.reached p offset passed

theorem Exact.publish {message} (appends : Appends s.bus message bus) :
    Exact groupID topicName { s with bus, published := s.published ++ [message] } := by
  have newer := exact.sound.lt_of_appends appends
  have offsets : committed bus = committed s.bus := by
    funext group p
    simp only [committed, appends.offsets]
  refine ⟨exact.sound.publish appends, ?_, ?_, ?_⟩
  · intro m mem topic
    rw [offsets]
    rcases mem_append.mp mem with old | new
    · exact exact.handled m old topic
    · rw [mem_singleton] at new
      subst new
      constructor
      · intro handled
        exact absurd (newer m (exact.known m handled) rfl rfl) (Nat.lt_irrefl _)
      · intro ok
        obtain ⟨x, old, eq, there, ahead⟩ := exact.reached m.partition m.offset ok
        have := newer x old (eq.trans topic.symm) there
        omega
  · exact fun m handled => mem_append_left _ (exact.known m handled)
  · intro p off ok
    rw [offsets] at ok
    obtain ⟨m, old, rest⟩ := exact.reached p off ok
    exact ⟨m, mem_append_left _ old, rest⟩

theorem Exact.consume {g consumers} (hit : s.bus.consumerGroups.lookup g = some consumers)
    {out topic p} (reads : g = groupID → topic = topicName)
    (orderly : Orderly groupID s (.consumePartition g out topic p)) :
    Exact groupID topicName (consumePartition s g out topic p) := by
  have published := (exact.sound.consumed g out topic p).published
  refine ⟨exact.sound.consume hit out topic p, ?_, ?_, ?_⟩
  · intro m mem own
    rw [published] at mem
    rw [exact.sound.mem_handled, exact.sound.lt_committed, exact.handled m mem own]
    constructor
    · rintro (ok | ⟨rfl, new, succeeds⟩)
      · exact .inl ok
      · obtain ⟨-, -, rfl, -⟩ := exact.sound.mem_unread.mp new
        exact .inr ⟨rfl, rfl, m, new, succeeds, Nat.le_refl _⟩
    · rintro (ok | ⟨rfl, rfl, y, new, succeeds, later⟩)
      · exact .inl ok
      · rcases Nat.lt_or_ge m.offset (committed s.bus g m.partition) with ok | ahead
        · exact .inl ok
        · have x : m ∈ unread s g topic m.partition :=
            exact.sound.mem_unread.mpr ⟨mem, own.trans (reads rfl).symm, rfl, ahead⟩
          exact .inr ⟨rfl, x, orderly rfl m x y new later succeeds⟩
  · intro m handled
    rw [published]
    rcases (exact.sound.mem_handled ..).mp handled with old | ⟨-, new, -⟩
    · exact exact.known m old
    · exact (exact.sound.mem_unread.mp new).1
  · intro partition off ok
    rw [published]
    rcases (exact.sound.lt_committed ..).mp ok with old | ⟨eq, -, m, new, -, later⟩
    · exact exact.reached partition off old
    · obtain ⟨mem, own, there, -⟩ := exact.sound.mem_unread.mp new
      exact ⟨m, mem, own.trans (reads eq), there, later⟩

theorem Exact.moves (reads : Reads groupID topicName event) (orderly : Orderly groupID s event)
    (moves : Moves s event next) : Exact groupID topicName next := by
  cases moves with
  | quiet event quiet => exact exact.quiet quiet
  | publish topic k v headers rd appends => exact exact.publish appends
  | consume g out topic p hit => exact exact.consume hit reads orderly

/-- The failed message is passed by the offset of the later one and neither handled nor dead. -/
theorem Exact.orderly (reads : Reads groupID topicName event) (took : step s event = some next)
    (safe : NoLoss groupID topicName next) : Orderly groupID s event := by
  have inv := exact.sound.moves (moves_of_step exact.sound.registered took)
  cases event with
  | createTopic | publish | createConsumerGroup | joinGroup | rebalance => trivial
  | consumePartition g out topic p =>
    obtain ⟨-, rfl⟩ := guard_some.mp took
    rintro rfl x unread y later ord succeeds
    by_contra fails
    obtain ⟨mem, own, rfl, ahead⟩ := exact.sound.mem_unread.mp unread
    have topic_eq := own.trans (reads rfl)
    have ok := (exact.sound.lt_committed g g out topic x.partition
      x.partition x.offset).mpr (.inr ⟨rfl, rfl, y, later, succeeds, ord⟩)
    have published := (exact.sound.consumed g out topic x.partition).published
    rcases safe x (published ▸ mem) topic_eq ok with handled | ⟨dead, queued, -⟩
    · rcases (exact.sound.mem_handled ..).mp handled with old | ⟨-, -, now⟩
      · have := (exact.handled x mem topic_eq).mp old
        omega
      · exact fails now
    · rw [inv.dlq] at queued
      cases queued

omit exact

/-- A run in which the group reads one topic loses no message exactly if in no call the handler
fails for a message and then succeeds for a later one. -/
theorem no_message_lost_iff (run : exec step start events = some final)
    (reads : ∀ event ∈ events, Reads groupID topicName event) :
    Throughout step (NoLoss groupID topicName) start events ↔
      Along step (Orderly groupID) start events := by
  refine throughout_iff_along_of_lawful_run (Exact groupID topicName) exact_start
    (fun _ exact => exact.noLoss) (Reads groupID topicName) ?_ ?_ reads run
  · intro s event next exact reads orderly stepped
    exact exact.moves reads orderly (moves_of_step exact.sound.registered stepped)
  · intro s event next exact reads stepped safe
    exact exact.orderly reads stepped safe

def oneTopic : List Event :=
  [.createTopic "orders" 1, .createConsumerGroup "workers", .joinGroup "workers" "w" ["orders"],
    .rebalance "workers" ["w"] ["orders"]]

def order (value : UInt8) : Event := .publish "orders" [] [value] ∅ ⟨0, 0⟩

def consumeOrders (bad : List UInt8) : Event :=
  .consumePartition "workers" (fun msg => msg.value.all (· ∉ bad)) "orders" 0

instance (groupID : String) (s : State) (event : Event) : Decidable (Orderly groupID s event) :=
  match event with
  | .createTopic .. | .publish .. | .createConsumerGroup .. | .joinGroup .. | .rebalance .. =>
    isTrue trivial
  | .consumePartition .. => inferInstanceAs (Decidable (_ → ∀ first ∈ _, ∀ second ∈ _, _ → _ → _))

def retried : List Event := oneTopic ++ [order 1, order 2, consumeOrders [2], consumeOrders []]

theorem retried_message_handled :
    ∃ final, exec step start retried = some final ∧ committed final.bus "workers" 0 = 2 ∧
      final.published.length = 2 ∧ NoLoss "workers" "orders" final := by
  refine exists_exec (fun final => committed final.bus "workers" 0 = 2 ∧
    final.published.length = 2) (by decide) ?_
  intro final run ⟨passed, published⟩
  have reads : ∀ event ∈ retried, Reads "workers" "orders" event := by
    simp [retried, oneTopic, order, consumeOrders, Reads]
  have orderly : Along step (Orderly "workers") start retried :=
    along_of_decide (by decide)
  exact ⟨passed, published, ((no_message_lost_iff run reads).mpr orderly).last run⟩

/-- The first of two messages fails and the second one succeeds. The offset 2 is beyond both, so the
first one is not read again. -/
theorem failed_message_skipped :
    ∃ final, exec step start (oneTopic ++ [order 1, order 2, consumeOrders [1], consumeOrders []]) =
        some final ∧
      committed final.bus "workers" 0 = 2 ∧ final.bus.dlq = [] ∧
      final.published.map Message.value = [[1], [2]] ∧
      final.handled.map (fun entry => entry.2.value) = [[2]] :=
  ⟨_, rfl, by decide, by decide, by decide, by decide⟩

end

/- What a pass of consumePartitions reaches. The offsets are by group and partition, so a partition
of one topic is read from where the same partition of another topic was left. -/
open Finmap Runs

/-- Every message published to a subscribed topic was handled by the group. -/
def CaughtUp (groupID : String) (topics : List String) (s : State) : Prop :=
  ∀ msg ∈ s.published, msg.topic ∈ topics → (groupID, msg) ∈ s.handled

/-- Every partition of the topics is assigned to the consumer. -/
def Assigned (mb : MessageBusExample) (group : ConsumerGroup) (consumerID : String)
    (topics : List String) : Prop :=
  ∀ topicName ∈ topics, ∀ topic ∈ mb.topics.lookup topicName,
    ∀ partitionID < topic.partitions.length,
      group.assignments.lookup partitionID = some consumerID

instance (mb : MessageBusExample) (group : ConsumerGroup) (consumerID : String)
    (topics : List String) : Decidable (Assigned mb group consumerID topics) :=
  inferInstanceAs (Decidable (∀ topicName ∈ topics, ∀ topic ∈ mb.topics.lookup topicName, _))

/-- A call of consumePartition finds no message below the committed offset that the group has not
handled. -/
def Reaches (s : State) : Event → Prop
  | .consumePartition groupID _ topicName partitionID =>
    ∀ msg ∈ messagesOf s.bus topicName partitionID,
      msg.offset < committed s.bus groupID partitionID → (groupID, msg) ∈ s.handled
  | _ => True

def succeed : Message → Bool := fun _ => true

def calls (groupID : String) (topics : List String) (order : List Nat) : List Event :=
  order.flatMap fun partitionID => topics.map fun topicName =>
    .consumePartition groupID succeed topicName partitionID

variable {s next : State} {e : Event} {events : List Event} {groupID : String}
  {topics : List String} {order : List Nat} {entry : String × Message} {m : Message}

theorem partitionOf_isSome_iff {mb t p} :
    (partitionOf mb t p).isSome = true ↔
      ∃ topic, mb.topics.lookup t = some topic ∧ p < topic.partitions.length := by
  unfold partitionOf
  cases mb.topics.lookup t with
  | none => simp
  | some topic => simp

theorem mem_calls : e ∈ calls groupID topics order ↔ ∃ p ∈ order, ∃ t ∈ topics,
      .consumePartition groupID succeed t p = e := by
  simp only [calls, List.mem_flatMap, List.mem_map]

theorem handled_kept (inv : Sound s) (run : exec step s events = some next)
    (handled : entry ∈ s.handled) : entry ∈ next.handled := by
  refine (exec_invariant (fun s => Sound s ∧ entry ∈ s.handled) ⟨inv, handled⟩ ?_ run).2
  rintro s e next ⟨inv, handled⟩ stepped
  have moves := moves_of_step inv.registered stepped
  refine ⟨inv.moves moves, ?_⟩
  cases moves with
  | quiet e quiet => exact handled
  | publish t k v headers rd appends => exact handled
  | consume g out t p hit =>
    rw [(inv.consumed g out t p).handled]
    exact List.mem_append_left _ handled

/-- The group has passed the message without handling it. -/
structure Lost (groupID : String) (msg : Message) (s : State) : Prop where
  sound : Sound s
  published : msg ∈ s.published
  unhandled : (groupID, msg) ∉ s.handled
  passed : msg.offset < committed s.bus groupID msg.partition

theorem lost_step (lost : Lost groupID m s) (took : step s e = some next) :
    Lost groupID m next := by
  have moves := moves_of_step lost.sound.registered took
  have inv := lost.sound.moves moves
  cases moves with
  | quiet e quiet =>
    refine ⟨inv, lost.published, lost.unhandled, ?_⟩
    rw [quiet.offsets]
    exact lost.passed
  | publish t k v headers rd appends =>
    refine ⟨inv, List.mem_append_left _ lost.published, lost.unhandled, ?_⟩
    rw [committed, appends.offsets]
    exact lost.passed
  | consume g out t p hit =>
    refine ⟨inv, ?_, ?_, ?_⟩
    · rw [(lost.sound.consumed g out t p).published]
      exact lost.published
    · intro handled
      rcases (lost.sound.mem_handled ..).mp handled with old | ⟨rfl, unread, -⟩
      · exact lost.unhandled old
      · obtain ⟨-, -, rfl, ahead⟩ := lost.sound.mem_unread.mp unread
        exact Nat.not_lt.mpr ahead lost.passed
    · exact (lost.sound.lt_committed ..).mpr (.inl lost.passed)

theorem lost_forever (lost : Lost groupID m s) (run : exec step s events = some next) :
    Lost groupID m next :=
  exec_invariant (Lost groupID m) lost (fun _ _ _ lost took => lost_step lost took) run

theorem handled_of_reaches (inv : Sound s) {t p}
    (took : step s (.consumePartition groupID succeed t p) = some next)
    (reaches : Reaches s (.consumePartition groupID succeed t p))
    (stored : m ∈ messagesOf s.bus t p) : (groupID, m) ∈ next.handled := by
  obtain ⟨-, rfl⟩ := guard_some.mp took
  rw [inv.mem_handled]
  rcases Nat.lt_or_ge m.offset (committed s.bus groupID p) with passed | ahead
  · exact .inl (reaches m stored passed)
  · exact .inr ⟨rfl, mem_unread.mpr ⟨stored, ahead⟩, rfl⟩

section

variable {group : ConsumerGroup} {consumer : Consumer} {consumerID : String}

/-- Calls of consumePartition leave the topics, the groups and what was published. -/
structure Same (s next : State) : Prop where
  sound : Sound next
  topics : next.bus.topics = s.bus.topics
  groups : next.bus.consumerGroups = s.bus.consumerGroups
  published : next.published = s.published

theorem Same.trans {middle} (x : Same s middle) (y : Same middle next) : Same s next :=
  ⟨y.sound, y.topics.trans x.topics, y.groups.trans x.groups, y.published.trans x.published⟩

variable (sound : Sound s)
include sound

theorem Sound.same (hit : s.bus.consumerGroups.lookup groupID = some group) (out t p) :
    Same s (consumePartition s groupID out t p) :=
  have consumed := sound.consumed groupID out t p
  ⟨sound.consume hit out t p, consumed.topics, consumed.groups, consumed.published⟩

theorem same_of_calls {pre after} (split : calls groupID topics order = pre ++ after)
    (run : exec step s pre = some next) : Same s next := by
  have only : ∀ e ∈ pre, e ∈ calls groupID topics order := by
    intro e mem
    exact split ▸ List.mem_append_left after mem
  refine exec_guarded (Same s) ⟨sound, rfl, rfl, rfl⟩ ?_ run (along_of_forall only)
  intro state e next eq c took
  obtain ⟨p, -, t, -, rfl⟩ := mem_calls.mp c
  obtain ⟨hit, rfl⟩ := guard_some.mp took
  obtain ⟨group, hit⟩ := Option.isSome_iff_exists.mp hit
  exact eq.trans (eq.sound.same hit succeed t p)

theorem exec_topics (hit : s.bus.consumerGroups.lookup groupID = some group) (topics : List String)
    (p) :
    ∃ next, exec step s (topics.map fun t =>
        .consumePartition groupID succeed t p) = some next ∧
      next = topics.foldl (fun s t =>
        consumePartition s groupID succeed t p) s ∧ Same s next := by
  induction topics generalizing s with
  | nil => exact ⟨s, rfl, rfl, sound, rfl, rfl, rfl⟩
  | cons t topics ih =>
    have eq := sound.same hit succeed t p
    obtain ⟨next, run, loop, rest⟩ := ih eq.sound (eq.groups ▸ hit)
    refine ⟨next, exec_cons_some.mpr ⟨_, ?_, run⟩, loop, eq.trans rest⟩
    simp only [step, hit, Option.isSome_some, if_true]

theorem exec_calls (hit : s.bus.consumerGroups.lookup group.id = some group) (consumer : Consumer)
    (order) :
    exec step s (calls group.id consumer.topics order) =
      some (consumePartitions s succeed group consumer order) := by
  induction order generalizing s with
  | nil => rfl
  | cons p order ih =>
    obtain ⟨mid, run, loop, eq⟩ := exec_topics sound hit consumer.topics p
    refine exec_append_some.mpr ⟨mid, run, ?_⟩
    rw [consumePartitions, List.foldl_cons, ← loop]
    exact ih eq.sound (eq.groups ▸ hit)

theorem reaches_of_caughtUp (run : exec step s (calls groupID topics order) = some next)
    (caughtUp : CaughtUp groupID topics next) :
    Along step Reaches s (calls groupID topics order) := by
  intro pre e after split state came
  have c : e ∈ calls groupID topics order := by simp [split]
  have eq := same_of_calls sound split came
  obtain ⟨p, -, t, subscribed, rfl⟩ := mem_calls.mp c
  intro m stored ok
  by_contra unhandled
  obtain ⟨published, rfl, rfl⟩ := (eq.sound.stored _ _ m).mp stored
  have lost : Lost groupID m state := ⟨eq.sound, published, unhandled, ok⟩
  have lost := lost_forever lost (exec_resume (split ▸ run) came)
  exact lost.unhandled (caughtUp m lost.published subscribed)

theorem caughtUp_of_reaches (run : exec step s (calls groupID topics order) = some next)
    (covered : ∀ t ∈ topics, ∀ p, (partitionOf s.bus t p).isSome = true → p ∈ order)
    (reaches : Along step Reaches s (calls groupID topics order)) :
    CaughtUp groupID topics next := by
  intro m published subscribed
  have whole := same_of_calls sound (List.append_nil _).symm run
  have stored := (sound.stored _ _ m).mpr ⟨whole.published ▸ published, rfl, rfl⟩
  have visited : m.partition ∈ order := by
    apply covered m.topic subscribed
    unfold messagesOf at stored
    cases found : partitionOf s.bus m.topic m.partition with
    | none => simp [found] at stored
    | some partition => rfl
  have c : .consumePartition groupID succeed m.topic m.partition ∈ calls groupID topics order :=
    mem_calls.mpr ⟨m.partition, visited, m.topic, subscribed, rfl⟩
  obtain ⟨pre, after, split⟩ := List.append_of_mem c
  obtain ⟨state, came, rest⟩ := exec_append_some.mp (split ▸ run)
  obtain ⟨mid, took, rest⟩ := exec_cons_some.mp rest
  have eq := same_of_calls sound split came
  have there : m ∈ messagesOf state.bus m.topic m.partition := by
    rw [messagesOf, partitionOf, eq.topics]
    exact stored
  have handled := handled_of_reaches eq.sound took (reaches pre _ after split state came) there
  exact handled_kept (eq.sound.moves (moves_of_step eq.sound.registered took)) rest handled

omit sound

/-- A pass of a consumer that is assigned every partition of its topics, and whose handler does not
fail, leaves every message published to them handled exactly if none of its calls finds a message
below the committed offset that was not handled. -/
theorem pass_catches_up_iff (run : exec step start events = some s)
    (found : s.bus.consumerGroups.lookup groupID = some group)
    (joined : group.consumers.lookup consumerID = some consumer)
    (assigned : Assigned s.bus group consumerID consumer.topics)
    (ranges : order.toFinset = group.assignedTo consumer) :
    CaughtUp groupID consumer.topics (consumePartitions s succeed group consumer order) ↔
      Along step Reaches s (calls groupID consumer.topics order) := by
  have sound := sound_of_run run
  obtain rfl := sound.registered.groups groupID group found
  have named := sound.registered.consumers group.id group found consumerID consumer joined
  have pass := exec_calls sound found consumer order
  constructor
  · exact reaches_of_caughtUp sound pass
  · apply caughtUp_of_reaches sound pass
    intro topicName subscribed partitionID present
    obtain ⟨topic, stored, inside⟩ := partitionOf_isSome_iff.mp present
    have owner := assigned topicName subscribed topic stored partitionID inside
    rw [← List.mem_toFinset, ranges, ConsumerGroup.assignedTo, Finset.mem_filter, mem_keys]
    exact ⟨mem_of_lookup_eq_some owner, named ▸ owner⟩

end

variable {t : String}

/-- A group that reads one topic, and whose handler has not failed for a message and then succeeded
for a later one, leaves none out. -/
theorem one_topic_caughtUp (run : exec step start events = some s)
    (reads : ∀ e ∈ events, Reads groupID t e) (orderly : Along step (Orderly groupID) start events)
    (pass : exec step s (calls groupID [t] order) = some next)
    (covered : ∀ p, (partitionOf s.bus t p).isSome = true → p ∈ order) :
    CaughtUp groupID [t] next := by
  have keeps : ∀ s e next, Exact groupID t s →
      Orderly groupID s e ∧ Reads groupID t e → step s e = some next →
      Exact groupID t next := by
    intro s e next exact good took
    exact exact.moves good.2 good.1 (moves_of_step exact.sound.registered took)
  have exact := exec_guarded (Exact groupID t) exact_start keeps run
    (orderly.and (along_of_forall reads))
  refine caughtUp_of_reaches exact.sound pass (by simpa using covered) ?_
  intro pre e after split state came
  have succeeds : ∀ c ∈ calls groupID [t] order, ∀ s : State,
      Orderly groupID s c ∧ Reads groupID t c := by
    intro c mem s
    obtain ⟨p, -, name, own, rfl⟩ := mem_calls.mp mem
    exact ⟨fun _ _ _ _ _ _ _ => rfl, fun _ => List.mem_singleton.mp own⟩
  have exact := exec_guarded (Exact groupID t) exact keeps came
    fun front c back parts s _ => succeeds c (by simp [split, parts]) s
  obtain ⟨p, -, name, own, rfl⟩ := mem_calls.mp (show e ∈ calls groupID [t] order by simp [split])
  intro m stored ok
  obtain ⟨published, topic, rfl⟩ := (exact.sound.stored _ _ m).mp stored
  exact (exact.handled m published (topic.trans (List.mem_singleton.mp own))).mpr ok

variable {mb : MessageBusExample} {g : ConsumerGroup} {c : String}
  {consumer : Consumer} {ids ns : List String}

theorem lookup_assign_single (allPartitions p) :
    (assign [c] allPartitions).lookup p = if p ∈ allPartitions then some c else none := by
  have loop : ∀ pairs : List (Nat × Nat), (pairs.foldl (fun assignments pair =>
        assignments.insert pair.1 c) (∅ : GoMap Nat String)).lookup p =
      if p ∈ pairs.map Prod.fst then some c else none := by
    intro pairs
    induction pairs using List.reverseRecOn with
    | nil => rfl
    | append_singleton pairs pair ih =>
      rw [List.foldl_concat, GoMap.lookup_insert_ite, ih]
      by_cases same : p = pair.1
      · rw [if_pos same, if_pos (by simp [same])]
      · simp only [same, if_false, List.map_append, List.map_cons, List.map_nil,
          List.mem_append, List.mem_singleton, or_false]
  have round : ∀ i, ([c][i % [c].length]?).getD "" = c := by
    intro i
    simp [Nat.mod_one]
  rw [assign]
  simp only [round]
  rw [loop, List.zipIdx_map_fst]

/-- A rebalance of a group with a single consumer assigns it every partition of its topics. -/
theorem assigned_of_rebalance (hit : mb.consumerGroups.lookup groupID = some g)
    (joined : g.consumers.lookup c = some consumer) (active : consumer.active = true)
    (alone : ∀ id ∈ g.consumers, id = c) (rebalances : Rebalances mb groupID ids ns) :
    ∃ balanced, (rebalance mb groupID ids ns).consumerGroups.lookup groupID = some balanced ∧
      Assigned (rebalance mb groupID ids ns) balanced c consumer.topics := by
  obtain ⟨ranges, -, subscribed⟩ := rebalances g hit
  have single : ids = [c] := by
    refine List.perm_singleton.mp
      ((List.perm_ext_iff_of_nodup ranges.1 (List.nodup_singleton _)).mpr fun id => ?_)
    rw [ranges.mem_iff, List.mem_singleton]
    exact ⟨alone id, fun eq => eq ▸ mem_of_lookup_eq_some joined⟩
  have filtered : ([c].filter fun id =>
      (g.consumers.lookup id).any Consumer.active) = [c] := by
    simp [joined, active]
  unfold rebalance
  simp only [hit, single, filtered, if_false, List.cons_ne_self]
  refine ⟨_, lookup_insert _, fun t mem topic stored p lt => ?_⟩
  rw [lookup_assign_single, if_pos]
  have named : t ∈ ns := by
    rw [← List.mem_toFinset, subscribed, ConsumerGroup.topicsMap, Finset.mem_biUnion]
    refine ⟨c, mem_keys.mpr (mem_of_lookup_eq_some joined), ?_⟩
    simp [joined, active, mem]
  refine List.mem_flatMap.mpr ⟨t, named, ?_⟩
  rw [Option.mem_def.mp stored]
  exact List.mem_range.mpr lt

def twoTopics : List Event :=
  [.createTopic "orders" 2, .createTopic "payments" 2, .createConsumerGroup "workers",
    .joinGroup "workers" "w" ["orders", "payments"],
    .rebalance "workers" ["w"] ["orders", "payments"]]

def sendTo (topicName : String) (partitionID : Nat) : Event :=
  .publish topicName [] [] ∅ ⟨partitionID, 0⟩

def worker : Consumer := ⟨"w", "workers", ["orders", "payments"], true⟩

def workers : ConsumerGroup :=
  ⟨"workers", (∅ : GoMap String Consumer).insert "w" worker,
    ((∅ : GoMap Nat String).insert 0 "w").insert 1 "w", 1⟩

instance (s : State) (event : Event) : Decidable (Reaches s event) :=
  match event with
  | .createTopic .. | .publish .. | .createConsumerGroup .. | .joinGroup .. | .rebalance .. =>
    isTrue trivial
  | .consumePartition .. => inferInstanceAs (Decidable (∀ msg ∈ _, _ → _))

def apart : List Event :=
  twoTopics ++ [sendTo "orders" 0, sendTo "orders" 0, sendTo "payments" 1]

theorem assigned_of_rebalance_worker :
    ∃ s, exec step start (twoTopics.take 4) = some s ∧ ∃ g,
      (rebalance s.bus "workers" ["w"] worker.topics).consumerGroups.lookup "workers" = some g ∧
      Assigned (rebalance s.bus "workers" ["w"] worker.topics) g "w" worker.topics :=
  ⟨_, rfl, assigned_of_rebalance rfl rfl rfl (by decide) (by decide)⟩

theorem apart_topics_caught_up :
    ∃ s, exec step start apart = some s ∧ s.published.length = 3 ∧
      CaughtUp "workers" ["orders", "payments"]
        (consumePartitions s succeed workers worker [1, 0]) := by
  obtain ⟨s, run, published, found, assigned, reaches⟩ : ∃ s, exec step start apart = some s ∧
      s.published.length = 3 ∧ s.bus.consumerGroups.lookup "workers" = some workers ∧
      Assigned s.bus workers "w" worker.topics ∧
      Along step Reaches s (calls "workers" worker.topics [1, 0]) :=
    ⟨_, rfl, by decide, by decide, by decide, along_of_decide (by decide)⟩
  refine ⟨s, run, published, ?_⟩
  exact (pass_catches_up_iff run found (by decide) assigned (by decide)).mpr reaches

/-- Both topics have messages in partition 0. The offset 2 that the two orders leave is beyond the
payment, in this pass and in every later one. -/
theorem payment_skipped :
    ∃ s, exec step start
        (twoTopics ++ [sendTo "orders" 0, sendTo "orders" 0, sendTo "payments" 0]) = some s ∧
      s.bus.consumerGroups.lookup "workers" = some workers ∧
      (consumePartitions s succeed workers worker [0, 1]).handled.map
        (fun entry => entry.2.topic) = ["orders", "orders"] :=
  ⟨_, rfl, by decide, by decide⟩

end AsyncPractice.BusExample
