import AsyncPractice.FaultTolerantMessageBus
import AsyncPractice.MessageBusRebalance
import AsyncPractice.RWMutex

/- The locks of solution18_message_bus.go. Calls of JoinGroup, rebalance, checkGroupHealth and
ConsumeWithRetry run side by side on one bus, and each Lock, Unlock, RLock and RUnlock of mb.mu and
of a group's mu is a step of its own. -/
namespace AsyncPractice.MessageBusLocks

open Option FaultTolerantMessageBus Function GoMap List MessageBus Runs
open RWMutex (Accounts Mode)

variable {O : Type}

inductive Lock
  | bus
  | group (groupID : String)
  deriving DecidableEq

/-- What a step reads from outside: the clock, and the orders of the loops over maps. -/
structure Choice where
  now : Int
  orders : Orders
  visits : List (String × List Nat)

inductive Call (O : Type)
  | join (groupID consumerID : String) (topics : List String)
  | joinRefused
  | joinLocking (groupID consumerID : String) (topics : List String) (now : Int)
  | joinAdding (groupID consumerID : String) (topics : List String) (now : Int)
  | joinStarting (groupID : String)
  | joinEnding
  | rebalance (groupID : String)
  | rebalanceFinding (groupID : String)
  | rebalanceLocking (groupID : String)
  | rebalanceCollecting (groupID : String) (topics : List String)
      (topicPartitions : GoMap String (List Nat))
  | rebalanceReading (groupID topicName : String) (topics : List String)
      (topicPartitions : GoMap String (List Nat))
  | health (groupID : String)
  | healthMarking (groupID : String) (now : Int) (order : List String)
  | consume (groupID consumerID : String) (attempts : Attempts O)
  | consumeFinding (groupID consumerID : String) (attempts : Attempts O)
  | consumeLocking (groupID consumerID : String) (attempts : Attempts O)
  | consumeCopying (groupID consumerID : String) (attempts : Attempts O)
  | consumeVisiting (groupID : String) (attempts : Attempts O) (visits : List (String × Nat))
  | consumeLooking (groupID : String) (attempts : Attempts O) (visit : String × Nat)
      (visits : List (String × Nat))
  | consumeHandling (groupID : String) (attempts : Attempts O) (visit : String × Nat)
      (visits : List (String × Nat))
  | returned

/-- What the next step of a call does to the locks. -/
inductive Op
  | acquire (lock : Lock) (mode : Mode)
  | release (lock : Lock) (mode : Mode)
  | pass

def Call.op : Call O → Op
  | .join _ _ _ => .acquire .bus .write
  | .joinRefused => .release .bus .write
  | .joinLocking groupID _ _ _ => .acquire (.group groupID) .write
  | .joinAdding groupID _ _ _ => .release (.group groupID) .write
  | .joinStarting _ => .pass
  | .joinEnding => .release .bus .write
  | .rebalance _ => .acquire .bus .read
  | .rebalanceFinding _ => .release .bus .read
  | .rebalanceLocking groupID => .acquire (.group groupID) .write
  | .rebalanceCollecting _ (_ :: _) _ => .acquire .bus .read
  | .rebalanceReading _ _ _ _ => .release .bus .read
  | .rebalanceCollecting groupID [] _ => .release (.group groupID) .write
  | .health groupID => .acquire (.group groupID) .write
  | .healthMarking _ _ (_ :: _) => .pass
  | .healthMarking groupID _ [] => .release (.group groupID) .write
  | .consume _ _ _ => .acquire .bus .read
  | .consumeFinding _ _ _ => .release .bus .read
  | .consumeLocking groupID _ _ => .acquire (.group groupID) .read
  | .consumeCopying groupID _ _ => .release (.group groupID) .read
  | .consumeVisiting _ _ (_ :: _) => .acquire .bus .read
  | .consumeVisiting _ _ [] => .pass
  | .consumeLooking _ _ _ _ => .release .bus .read
  | .consumeHandling _ _ _ _ => .pass
  | .returned => .pass

def Call.held : Call O → List (Lock × Mode)
  | .joinRefused => [(.bus, .write)]
  | .joinLocking _ _ _ _ => [(.bus, .write)]
  | .joinAdding groupID _ _ _ => [(.group groupID, .write), (.bus, .write)]
  | .joinStarting _ => [(.bus, .write)]
  | .joinEnding => [(.bus, .write)]
  | .rebalanceFinding _ => [(.bus, .read)]
  | .rebalanceCollecting groupID _ _ => [(.group groupID, .write)]
  | .rebalanceReading groupID _ _ _ => [(.bus, .read), (.group groupID, .write)]
  | .healthMarking groupID _ _ => [(.group groupID, .write)]
  | .consumeFinding _ _ _ => [(.bus, .read)]
  | .consumeCopying groupID _ _ => [(.group groupID, .read)]
  | .consumeLooking _ _ _ _ => [(.bus, .read)]
  | _ => []

/-- What a step makes of the bus and of its call, and the calls it starts. -/
structure Effect (O : Type) where
  bus : FaultTolerantMessageBus.State O
  next : Call O
  started : List (Call O)

def subscriptions (consumers : GoMap String Consumer) (order : List String) : List String :=
  order.flatMap fun id =>
    match consumers.lookup id with
    | none => []
    | some consumer => if consumer.active then consumer.topics else []

def assign (group : ConsumerGroup) (topicPartitions : GoMap String (List Nat)) (orders : Orders) :
    ConsumerGroup :=
  let active := activeConsumers group.consumers orders.gathering
  if active.length = 0 then group
  else
    { group with
      assignments := (orders.topics.foldl (assignTopic active topicPartitions) (∅, 0)).1 }

variable (bus : FaultTolerantMessageBus.State O)

def setGroup (groupID : String) (group : ConsumerGroup) : FaultTolerantMessageBus.State O :=
  { bus with mb := { bus.mb with groups := bus.mb.groups.insert groupID group } }

/-- The step of a call, its lock operation apart; `none` where the orders are not those of the
maps. -/
def Call.effect (choice : Choice) : Call O → Option (Effect O)
  | .join groupID consumerID topics =>
    match bus.mb.groups.lookup groupID with
    | none => some ⟨bus, .joinRefused, []⟩
    | some _ => some ⟨bus, .joinLocking groupID consumerID topics choice.now, []⟩
  | .joinRefused => some ⟨bus, .returned, []⟩
  | .joinLocking groupID consumerID topics now =>
    some ⟨bus, .joinAdding groupID consumerID topics now, []⟩
  | .joinAdding groupID consumerID topics now =>
    match joinGroup bus.mb groupID consumerID topics now with
    | .error _ => none
    | .ok mb => some ⟨{ bus with mb }, .joinStarting groupID, []⟩
  | .joinStarting groupID => some ⟨bus, .joinEnding, [.rebalance groupID]⟩
  | .joinEnding => some ⟨bus, .returned, []⟩
  | .rebalance groupID => some ⟨bus, .rebalanceFinding groupID, []⟩
  | .rebalanceFinding groupID =>
    match bus.mb.groups.lookup groupID with
    | none => some ⟨bus, .returned, []⟩
    | some _ => some ⟨bus, .rebalanceLocking groupID, []⟩
  | .rebalanceLocking groupID => do
      let group ← bus.mb.groups.lookup groupID
      if Ranges choice.orders.collecting group.consumers then
        let topics := subscriptions group.consumers choice.orders.collecting
        some ⟨setGroup bus groupID { group with generation := group.generation + 1 },
          .rebalanceCollecting groupID topics ∅, []⟩
      else none
  | .rebalanceCollecting groupID (topicName :: topics) topicPartitions =>
    some ⟨bus, .rebalanceReading groupID topicName topics topicPartitions, []⟩
  | .rebalanceReading groupID topicName topics topicPartitions =>
    some ⟨bus, .rebalanceCollecting groupID topics
      (collectTopic bus.mb topicPartitions topicName), []⟩
  | .rebalanceCollecting groupID [] topicPartitions => do
      let group ← bus.mb.groups.lookup groupID
      if Ranges choice.orders.gathering group.consumers ∧
          Ranges choice.orders.topics topicPartitions then
        some ⟨setGroup bus groupID (assign group topicPartitions choice.orders), .returned, []⟩
      else none
  | .health groupID => do
      let group ← bus.mb.groups.lookup groupID
      if Ranges choice.orders.collecting group.consumers then
        some ⟨bus, .healthMarking groupID choice.now choice.orders.collecting, []⟩
      else none
  | .healthMarking groupID now (id :: order) => do
      let group ← bus.mb.groups.lookup groupID
      let marks := (group.consumers.lookup id).any (Consumer.timedOut now)
      some ⟨setGroup bus groupID (checkGroupHealth now [id] group),
        .healthMarking groupID now order, if marks then [.rebalance group.id] else []⟩
  | .healthMarking _ _ [] => some ⟨bus, .returned, []⟩
  | .consume groupID consumerID attempts =>
    some ⟨bus, .consumeFinding groupID consumerID attempts, []⟩
  | .consumeFinding groupID consumerID attempts =>
    match bus.mb.groups.lookup groupID with
    | none => some ⟨bus, .returned, []⟩
    | some _ => some ⟨bus, .consumeLocking groupID consumerID attempts, []⟩
  | .consumeLocking groupID consumerID attempts =>
    some ⟨bus, .consumeCopying groupID consumerID attempts, []⟩
  | .consumeCopying groupID consumerID attempts => do
      let group ← bus.mb.groups.lookup groupID
      match group.consumers.lookup consumerID with
      | none => some ⟨bus, .returned, []⟩
      | some _ =>
        if Visits group consumerID choice.visits then
          let visits := choice.visits.flatMap fun visit => visit.2.map (visit.1, ·)
          some ⟨bus, .consumeVisiting groupID attempts visits, []⟩
        else none
  | .consumeVisiting groupID attempts (visit :: visits) =>
    some ⟨bus, .consumeLooking groupID attempts visit visits, []⟩
  | .consumeVisiting _ _ [] => some ⟨bus, .returned, []⟩
  | .consumeLooking groupID attempts visit visits =>
    some ⟨bus, .consumeHandling groupID attempts visit visits, []⟩
  | .consumeHandling groupID attempts visit visits =>
    some ⟨consumeOrLog groupID attempts bus visit.1 visit.2,
      .consumeVisiting groupID attempts visits, []⟩
  | .returned => none

def Call.starts : Call O → Bool
  | .join _ _ _ => true
  | .rebalance _ => true
  | .health groupID => (bus.mb.groups.lookup groupID).isSome
  | .consume _ _ _ => true
  | _ => false

structure State (O : Type) where
  bus : FaultTolerantMessageBus.State O
  locks : Lock → RWMutex
  calls : List (Call O)

def start (bus : FaultTolerantMessageBus.State O) : State O := ⟨bus, fun _ => .free, []⟩

def Op.apply (locks : Lock → RWMutex) : Op → Option (Lock → RWMutex)
  | .acquire lock mode => ((locks lock).acquire mode).map (update locks lock)
  | .release lock mode => ((locks lock).release mode).map (update locks lock)
  | .pass => some locks

def advance (s : State O) (i : Nat) (choice : Choice) : Option (State O) := do
  let call ← s.calls[i]?
  let locks ← call.op.apply s.locks
  let effect ← call.effect s.bus choice
  some ⟨effect.bus, locks, s.calls.set i effect.next ++ effect.started⟩

inductive Event (O : Type)
  | start (call : Call O)
  | advance (i : Nat) (choice : Choice)

def step (s : State O) : Event O → Option (State O)
  | .start call =>
    if call.starts s.bus = true then some { s with calls := s.calls ++ [call] } else none
  | .advance i choice => advance s i choice

/-- The group that a call of JoinGroup is about to lock while it holds mb.mu. -/
def Call.joins : Call O → Option String
  | .joinLocking groupID _ _ _ => some groupID
  | _ => none

/-- The group that a rebalance has locked while it is about to look a topic up under mb.mu. -/
def Call.collects : Call O → Option String
  | .rebalanceCollecting groupID (_ :: _) _ => some groupID
  | _ => none

/-- What a step does to the locks its call holds. -/
def Op.Trades (before after : List (Lock × Mode)) : Op → Prop
  | .acquire lock mode => after = (lock, mode) :: before ∧ (lock, mode) ∉ before
  | .release lock mode => before = (lock, mode) :: after ∧ (lock, mode) ∉ after
  | .pass => after = before

/-- What the step of a call comes to, as far as the locks are concerned. -/
structure Lawful (bus : FaultTolerantMessageBus.State O) (choice : Choice) (call next : Call O)
    (started : List (Call O)) : Prop where
  trades : call.op.Trades call.held next.held
  begins : ∀ begun ∈ started, ∃ groupID, begun = .rebalance groupID
  joins : ∀ groupID, next.joins = some groupID →
    (bus.mb.groups.lookup groupID).isSome = true ∧
      ∃ consumerID topics, call = .join groupID consumerID topics
  collects : ∀ groupID, next.collects = some groupID →
    (∃ topicName topics topicPartitions,
      call = .rebalanceReading groupID topicName topics topicPartitions) ∨
    call = .rebalanceLocking groupID ∧ ∃ group, bus.mb.groups.lookup groupID = some group ∧
      subscriptions group.consumers choice.orders.collecting ≠ []

variable {bus : FaultTolerantMessageBus.State O} {choice : Choice} {call t : Call O}
  {started : List (Call O)}

theorem Lawful.plain (trades : call.op.Trades call.held t.held)
    (begins : ∀ begun ∈ started, ∃ g, begun = .rebalance g) (joins : t.joins = none)
    (collects : t.collects = none) : Lawful bus choice call t started := by
  refine ⟨trades, begins, fun g joining => ?_, fun g collecting => ?_⟩
  · rw [joins] at joining
    cases joining
  · rw [collects] at collecting
    cases collecting

theorem Lawful.quiet (trades : call.op.Trades call.held t.held) (joins : t.joins = none)
    (collects : t.collects = none) : Lawful bus choice call t [] :=
  .plain trades (forall_mem_nil _) joins collects

theorem collects_iff {g other topics tps} :
    (Call.rebalanceCollecting g topics tps : Call O).collects = some other ↔
      g = other ∧ topics ≠ [] := by
  cases topics <;> simp [Call.collects]

theorem effect_lawful {effect} (done : call.effect bus choice = some effect) :
    Lawful bus choice call effect.next effect.started := by
  cases call with
  | join g c topics =>
    simp only [Call.effect] at done
    split at done
    · cases done
      exact .quiet ⟨rfl, nofun⟩ rfl rfl
    next group hit =>
      cases done
      refine ⟨⟨rfl, nofun⟩, forall_mem_nil _, fun x joining => ?_, nofun⟩
      cases joining
      exact ⟨isSome_of_eq_some hit, c, topics, rfl⟩
  | joinAdding g c topics now =>
    simp only [Call.effect] at done
    split at done <;> cases done
    exact .quiet ⟨rfl, nofun⟩ rfl rfl
  | joinStarting g =>
    cases done
    exact .plain rfl (fun begun mem => ⟨g, mem_singleton.mp mem⟩) rfl rfl
  | rebalanceFinding g | consumeFinding g c attempts =>
    simp only [Call.effect] at done
    split at done <;> cases done <;> exact .quiet ⟨rfl, nofun⟩ rfl rfl
  | rebalanceLocking g =>
    obtain ⟨group, hit, done⟩ := bind_eq_some_iff.mp done
    obtain ⟨-, rfl⟩ := guard_some.mp done
    refine ⟨⟨rfl, nofun⟩, forall_mem_nil _, nofun, fun x collecting => Or.inr ?_⟩
    obtain ⟨rfl, left⟩ := collects_iff.mp collecting
    exact ⟨rfl, group, hit, left⟩
  | rebalanceCollecting g topics tps =>
    cases topics with
    | cons t topics =>
      cases done
      exact .quiet ⟨rfl, nofun⟩ rfl rfl
    | nil =>
      obtain ⟨group, hit, done⟩ := bind_eq_some_iff.mp done
      obtain ⟨-, rfl⟩ := guard_some.mp done
      exact .quiet ⟨rfl, nofun⟩ rfl rfl
  | rebalanceReading g t topics tps =>
    cases done
    refine ⟨⟨rfl, nofun⟩, forall_mem_nil _, nofun, fun x collecting => Or.inl ?_⟩
    obtain ⟨rfl, -⟩ := collects_iff.mp collecting
    exact ⟨t, topics, tps, rfl⟩
  | health g =>
    obtain ⟨group, hit, done⟩ := bind_eq_some_iff.mp done
    obtain ⟨-, rfl⟩ := guard_some.mp done
    exact .quiet ⟨rfl, nofun⟩ rfl rfl
  | healthMarking g now order =>
    cases order with
    | cons id order =>
      obtain ⟨group, hit, done⟩ := bind_eq_some_iff.mp done
      cases done
      refine .plain rfl (fun begun mem => ?_) rfl rfl
      split at mem
      · exact ⟨group.id, mem_singleton.mp mem⟩
      · cases mem
    | nil =>
      cases done
      exact .quiet ⟨rfl, nofun⟩ rfl rfl
  | consumeCopying g c attempts =>
    obtain ⟨group, hit, done⟩ := bind_eq_some_iff.mp done
    split at done
    · cases done
      exact .quiet ⟨rfl, nofun⟩ rfl rfl
    · obtain ⟨-, rfl⟩ := guard_some.mp done
      exact .quiet ⟨rfl, nofun⟩ rfl rfl
  | consumeVisiting g attempts visits =>
    cases visits with
    | cons visit visits =>
      cases done
      exact .quiet ⟨rfl, nofun⟩ rfl rfl
    | nil =>
      cases done
      exact .quiet rfl rfl rfl
  | consumeHandling g attempts visit visits =>
    cases done
    exact .quiet rfl rfl rfl
  | returned => cases done
  | _ =>
    cases done
    exact .quiet ⟨rfl, nofun⟩ rfl rfl

variable {s t : State O}

theorem advance_inv {i} (took : advance s i choice = some t) :
    ∃ (c : Call O) (locks : Lock → RWMutex) (effect : Effect O), s.calls[i]? = some c ∧
      c.op.apply s.locks = some locks ∧ c.effect s.bus choice = some effect ∧
      t = ⟨effect.bus, locks, s.calls.set i effect.next ++ effect.started⟩ := by
  obtain ⟨c, here, took⟩ := bind_eq_some_iff.mp took
  obtain ⟨locks, applied, took⟩ := bind_eq_some_iff.mp took
  obtain ⟨effect, done, took⟩ := bind_eq_some_iff.mp took
  cases took
  exact ⟨c, locks, effect, here, applied, done, rfl⟩

variable {c : Call O}

theorem start_inv (took : step s (.start c) = some t) :
    c.held = [] ∧ c.joins = none ∧ c.collects = none ∧ t = { s with calls := s.calls ++ [c] } := by
  obtain ⟨starts, rfl⟩ := guard_some.mp took
  cases c <;> first | exact ⟨rfl, rfl, rfl, rfl⟩ | cases starts

theorem Lawful.idle {after started} (lawful : Lawful bus choice c after started) :
    ∀ begun ∈ started, begun.held = [] := by
  intro begun mem
  obtain ⟨g, rfl⟩ := lawful.begins begun mem
  rfl

/-- The locks are held by the calls that have them, whatever the order of the steps. -/
theorem accounts_step {e} (inv : Accounts Call.held s.locks s.calls)
    (took : step s e = some t) : Accounts Call.held t.locks t.calls := by
  cases e with
  | start c =>
    obtain ⟨idle, -, -, rfl⟩ := start_inv took
    exact inv.begin fun p mem => mem_singleton.mp mem ▸ idle
  | advance i choice =>
    obtain ⟨c, locks, effect, here, applied, done, rfl⟩ := advance_inv took
    have lawful := effect_lawful done
    have trades := lawful.trades
    cases op : c.op with
    | acquire lock mode =>
      rw [op] at trades applied
      obtain ⟨got, acquired, rfl⟩ := map_eq_some_iff.mp applied
      exact inv.acquire here trades.1 trades.2 lawful.idle acquired
    | release lock mode =>
      rw [op] at trades applied
      obtain ⟨left, released, rfl⟩ := map_eq_some_iff.mp applied
      exact inv.release here trades.1 trades.2 lawful.idle released
    | pass =>
      rw [op] at trades applied
      cases applied
      exact inv.keep here trades lawful.idle

theorem run_accounts {es} (run : exec step (start bus) es = some t) :
    Accounts Call.held t.locks t.calls :=
  exec_invariant (fun s => Accounts Call.held s.locks s.calls) RWMutex.accounts_nil
    (fun _ _ _ inv took => accounts_step inv took) run

/-- Topic by topic, a rebalance collects what the function that takes it as one step does. -/
theorem foldl_subscriptions (mb : PartitionedMessageBus O) (cs) (order : List String) (tps) :
    (subscriptions cs order).foldl (collectTopic mb) tps =
      order.foldl (collectConsumer mb cs) tps := by
  induction order generalizing tps with
  | nil => rfl
  | cons id order ih =>
    have head : collectConsumer mb cs tps id =
        (subscriptions cs [id]).foldl (collectTopic mb) tps := by
      simp only [collectConsumer, subscriptions, flatMap_singleton]
      cases cs.lookup id with
      | none => rfl
      | some consumer =>
        dsimp only
        split <;> rfl
    have split : subscriptions cs (id :: order) =
        subscriptions cs [id] ++ subscriptions cs order := by
      simp only [subscriptions, flatMap_cons, flatMap_nil, append_nil]
    rw [split, foldl_append, foldl_cons, head, ih]

theorem assign_eq_rebalanceGroup (mb : PartitionedMessageBus O) (g) (orders : Orders) :
    assign { g with generation := g.generation + 1 }
        (collectPartitions mb g.consumers orders.collecting) orders =
      rebalanceGroup mb g orders := by
  simp only [assign, rebalanceGroup]

variable {i : Nat} {g : String}

def State.put (s : State O) (i : Nat) (call : Call O) : State O :=
  { s with calls := s.calls.set i call }

theorem put_self (here : s.calls[i]? = some c) : s.put i c = s := by
  obtain ⟨lt, hit⟩ := List.getElem?_eq_some_iff.mp here
  rw [State.put, ← hit, set_getElem_self]

theorem put_here {old} (here : s.calls[i]? = some old) (c) : (s.put i c).calls[i]? = some c := by
  obtain ⟨lt, -⟩ := List.getElem?_eq_some_iff.mp here
  exact getElem?_set_self lt

theorem put_put (x y) : (s.put i x).put i y = s.put i y := by
  simp only [State.put, set_set]

theorem advance_put (s choice locks) {after} (here : s.calls[i]? = some c)
    (applied : c.op.apply s.locks = some locks)
    (done : c.effect s.bus choice = some ⟨bus, after, []⟩) :
    step s (.advance i choice) = some ({ s with bus, locks }.put i after) := by
  simp only [step, advance, here, applied, done, bind_eq_bind, Option.bind_some,
    append_nil, State.put]

variable {locks : Lock → RWMutex} {lock : Lock} {mode : Mode} {taken : RWMutex}
  {tps : GoMap String (List Nat)} {topics : List String} {group : ConsumerGroup}

theorem apply_acquire (got : (locks lock).acquire mode = some taken) :
    (Op.acquire lock mode).apply locks = some (update locks lock taken) := by
  simp only [Op.apply, got, Option.map_some]

theorem apply_release (got : (locks lock).acquire mode = some taken) :
    (Op.release lock mode).apply (update locks lock taken) = some locks := by
  simp only [Op.apply, update_self, RWMutex.release_of_acquire got, Option.map_some,
    update_idem, update_eq_self]

theorem lookup_alone (choice) {t}
    (here : s.calls[i]? = some (.rebalanceCollecting g (t :: topics) tps))
    (unlocked : (s.locks .bus).writer = false) :
    exec step s [.advance i choice, .advance i choice] = some (s.put i (.rebalanceCollecting g
      topics (collectTopic s.bus.mb tps t))) := by
  have lt := (List.getElem?_eq_some_iff.mp here).1
  obtain ⟨taken, got⟩ : ∃ taken, (s.locks .bus).acquire .read = some taken := ⟨_, if_pos unlocked⟩
  have x := advance_put s choice _ here (apply_acquire got) rfl
  have y := advance_put ({ s with locks := update s.locks .bus taken }.put i
    (.rebalanceReading g t topics tps)) choice _
    (getElem?_set_self lt) (apply_release got) rfl
  refine exec_cons_some.mpr ⟨_, x, exec_cons_some.mpr ⟨_, y, ?_⟩⟩
  simp only [State.put, set_set, exec_nil]

theorem collect_alone (choice) (here : s.calls[i]? = some (.rebalanceCollecting g topics tps))
    (unlocked : (s.locks .bus).writer = false) :
    ∃ es, (∀ e ∈ es, e = .advance i choice) ∧
      exec step s es = some (s.put i (.rebalanceCollecting g []
        (topics.foldl (collectTopic s.bus.mb) tps))) := by
  induction topics generalizing s tps with
  | nil => exact ⟨[], nofun, congrArg some (put_self here).symm⟩
  | cons t topics ih =>
    have look := lookup_alone choice here unlocked
    obtain ⟨es, own, run⟩ := ih (put_here here _) unlocked
    refine ⟨[.advance i choice, .advance i choice] ++ es, ?_, ?_⟩
    · intro e mem
      rcases mem_append.mp mem with first | later
      · simpa using first
      · exact own e later
    · rw [put_put] at run
      exact exec_append_some.mpr ⟨_, look, run⟩

theorem effect_locking (hit : bus.mb.groups.lookup g = some group)
    (ranges : Ranges choice.orders.collecting group.consumers) :
    (Call.rebalanceLocking g : Call O).effect bus choice =
      some ⟨setGroup bus g { group with generation := group.generation + 1 },
        .rebalanceCollecting g (subscriptions group.consumers choice.orders.collecting) ∅,
        []⟩ := by
  simp only [Call.effect, hit, bind_eq_bind, Option.bind_some, if_pos ranges]

theorem effect_assigning (hit : bus.mb.groups.lookup g = some group)
    (gathering : Ranges choice.orders.gathering group.consumers)
    (topics : Ranges choice.orders.topics tps) :
    (Call.rebalanceCollecting g [] tps : Call O).effect bus choice =
      some ⟨setGroup bus g (assign group tps choice.orders), .returned, []⟩ := by
  simp only [Call.effect, hit, bind_eq_bind, Option.bind_some, if_pos (And.intro gathering topics)]

end AsyncPractice.MessageBusLocks
