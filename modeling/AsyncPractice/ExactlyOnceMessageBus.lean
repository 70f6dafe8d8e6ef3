import AsyncPractice.MessageBus
import AsyncPractice.Runs

/- ExactlyOnceMessageBus of solution18_message_bus.go: transactions whose messages are kept back
until the commit. -/
namespace AsyncPractice.ExactlyOnceMessageBus

section

open MessageBus

inductive TxState
  | pending
  | committed
  | aborted
  deriving DecidableEq

/-- The transaction a message was sent in, and its place there. -/
abbrev Origin := String × Nat

structure Transaction where
  id : String
  state : TxState
  messages : List (Message Origin)
  timestamp : Int

structure Bus where
  mb : PartitionedMessageBus Origin
  transactions : GoMap String Transaction

def newExactlyOnceMessageBus : Bus := ⟨newPartitionedMessageBus, ∅⟩

def beginTransaction (bus : Bus) (txID : String) (timestamp : Int) : Bus :=
  { bus with transactions := bus.transactions.insert txID ⟨txID, .pending, [], timestamp⟩ }

/-- The message as it waits for the commit, with zero values for what Send fills in. -/
def preparedMessage (txID topicName : String) (key value : Bytes) (timestamp : Int) (index : Nat) :
    Message Origin where
  id := ""
  topic := topicName
  partition := 0
  offset := 0
  key := key
  value := value
  headers := ∅
  timestamp := timestamp
  origin := (txID, index)

def sendTransactional (bus : Bus) (txID topicName : String) (key value : Bytes) (timestamp : Int) :
    Except String Bus :=
  match bus.transactions.lookup txID with
  | none => .error ("transaction " ++ txID ++ " not found")
  | some tx =>
    if tx.state ≠ .pending then .error ("transaction " ++ txID ++ " is not pending")
    else
      let message := preparedMessage txID topicName key value timestamp tx.messages.length
      let tx := { tx with messages := tx.messages ++ [message] }
      .ok { bus with transactions := bus.transactions.insert txID tx }

def request (msg : Message Origin) : Request Origin :=
  ⟨msg.topic, msg.key, msg.value, msg.headers, msg.origin⟩

/-- The loop of CommitTransaction: sends up to the first error. `clock` is what Send reads for
the message. -/
def sendAll (clock : Origin → Reading) (mb : PartitionedMessageBus Origin) :
    List (Message Origin) → Option (PartitionedMessageBus Origin × Except String Unit)
  | [] => some (mb, .ok ())
  | msg :: messages =>
    (send mb (request msg) (clock msg.origin)).bind fun
      | .error err => some (mb, .error err)
      | .ok mb => sendAll clock mb messages

def commitTransaction (clock : Origin → Reading) (bus : Bus) (txID : String) :
    Option (Bus × Except String Unit) :=
  match bus.transactions.lookup txID with
  | none => some (bus, .error ("transaction " ++ txID ++ " not found"))
  | some tx =>
    (sendAll clock bus.mb tx.messages).map fun
      | (mb, .ok ()) =>
        (⟨mb, bus.transactions.insert txID { tx with state := .committed }⟩, .ok ())
      | (mb, .error err) =>
        (⟨mb, bus.transactions.insert txID { tx with state := .aborted }⟩, .error err)

/-- With the transactions for which some commit returned nil. -/
structure State where
  bus : Bus
  succeeded : Finset String

def newState : State := ⟨newExactlyOnceMessageBus, ∅⟩

inductive Op
  | createTopic (name : String) (numPartitions : Nat)
  | begin (txID : String) (timestamp : Int)
  | send (txID topicName : String) (key value : Bytes) (timestamp : Int)
  | commit (txID : String) (clock : Origin → Reading)

/-- No two transactions begin with the same id. A call that returns an error changes nothing but
what CommitTransaction has sent and recorded by then. -/
def step (s : State) : Op → Option State
  | .createTopic name numPartitions =>
    match createTopic s.bus.mb name numPartitions with
    | .error _ => some s
    | .ok mb => some { s with bus := { s.bus with mb } }
  | .begin txID timestamp =>
    if (s.bus.transactions.lookup txID).isSome then none
    else some { s with bus := beginTransaction s.bus txID timestamp }
  | .send txID topicName key value timestamp =>
    match sendTransactional s.bus txID topicName key value timestamp with
    | .error _ => some s
    | .ok bus => some { s with bus }
  | .commit txID clock =>
    (commitTransaction clock s.bus txID).map fun
      | (bus, .ok ()) => ⟨bus, insert txID s.succeeded⟩
      | (bus, .error _) => ⟨bus, s.succeeded⟩

end

open Option GoMap List MessageBus Runs

/-- Send would go through for the message, when the commit reads this clock. -/
def Goes (clock : Origin → Reading) (mb : PartitionedMessageBus Origin) (msg : Message Origin) :
    Prop :=
  Sendable mb (request msg) (clock msg.origin)

variable {clock : Origin → Reading} {mb t : PartitionedMessageBus Origin}

/-- What the loop does: it sends the messages up to the first one that cannot be sent. -/
structure SentAll (clock : Origin → Reading) (mb next : PartitionedMessageBus Origin)
    (sent rest : List (Message Origin)) : Prop where
  sizes : ∀ name, (next.topics.lookup name).map (·.partitions.length) =
    (mb.topics.lookup name).map (·.partitions.length)
  copies : ∀ origin, next.copies origin = mb.copies origin + sent.countP (·.origin = origin)
  sendable : ∀ msg ∈ sent, Goes clock mb msg
  stopped : ∀ msg ∈ rest.head?, ¬ Goes clock mb msg

variable {rest : List (Message Origin)}

theorem sentAll_nil (halt : ∀ msg ∈ rest.head?, ¬ Goes clock mb msg) :
    SentAll clock mb mb [] rest :=
  ⟨fun _ => rfl, fun _ => rfl, fun _ mem => absurd mem not_mem_nil, halt⟩

theorem SentAll.cons {m middle sent} (goes : Goes clock mb m)
    (x : send mb (request m) (clock m.origin) = some (.ok middle))
    (later : SentAll clock middle t sent rest) : SentAll clock mb t (m :: sent) rest := by
  obtain ⟨topic, partitionID, partition, app⟩ := send_ok x
  have eq : ∀ m, Goes clock middle m ↔ Goes clock mb m :=
    fun m => sendable_congr app.lookup _ _
  constructor
  · intro name
    rw [later.sizes, app.lookup]
  · intro origin
    rw [later.copies, app.copies, countP_cons]
    by_cases eq : m.origin = origin
    · simp only [request, eq, decide_true, if_true]
      omega
    · simp only [request, eq, decide_false, if_false, Bool.false_eq_true]
      omega
  · intro other mem
    rcases mem_cons.mp mem with rfl | mem
    · exact goes
    · exact (eq other).mp (later.sendable other mem)
  · intro other mem
    exact (eq other).not.mp (later.stopped other mem)

theorem sendAll_spec (clock) (valid : ValidCounts mb) (ms) :
    ∃ t sent rest res, sendAll clock mb ms = some (t, res) ∧
      ms = sent ++ rest ∧ SentAll clock mb t sent rest ∧
      ((rest = [] ∧ res = .ok ()) ∨ (rest ≠ [] ∧ ∃ err, res = .error err)) := by
  induction ms generalizing mb with
  | nil => exact ⟨mb, [], [], _, rfl, rfl, sentAll_nil (by simp), .inl ⟨rfl, rfl⟩⟩
  | cons m ms ih =>
    rcases send_cases valid (request m) (clock m.origin) with
      ⟨stuck, err, failed⟩ | ⟨goes, mid, x⟩
    · refine ⟨mb, [], m :: ms, .error err, ?_, rfl, sentAll_nil ?_,
        .inr ⟨cons_ne_nil _ _, err, rfl⟩⟩
      · rw [sendAll, failed]
        rfl
      · intro other mem
        cases mem
        exact stuck
    · obtain ⟨topic, partitionID, partition, app⟩ := send_ok x
      obtain ⟨t, sent, rest, res, ran, split, all, out⟩ :=
        ih (validCounts_congr app.lookup valid)
      refine ⟨t, m :: sent, rest, res, ?_, by rw [split]; rfl, SentAll.cons goes x all, out⟩
      rw [sendAll, x]
      exact ran

/-- A transaction that some commit returned nil for has each of its messages in the topics once,
any other transaction none. -/
def Atomic (s : State) : Prop :=
  ∀ txID tx, s.bus.transactions.lookup txID = some tx → ∀ msg ∈ tx.messages,
    s.bus.mb.copies msg.origin = if txID ∈ s.succeeded then 1 else 0

/-- A commit sends nothing, or it sends all messages of a transaction for the first time. -/
def CommitSafe (s : State) : Op → Prop
  | .commit txID clock => ∀ tx, s.bus.transactions.lookup txID = some tx →
      (∀ first ∈ tx.messages.head?, ¬ Goes clock s.bus.mb first) ∨
      (txID ∉ s.succeeded ∧ ∀ msg ∈ tx.messages, Goes clock s.bus.mb msg)
  | _ => True

instance (s : State) : DecidablePred (CommitSafe s)
  | .commit txID clock => inferInstanceAs (Decidable (∀ tx ∈ s.bus.transactions.lookup txID,
      (∀ first ∈ tx.messages.head?, ¬ Sendable s.bus.mb (request first) (clock first.origin)) ∨
      (txID ∉ s.succeeded ∧
        ∀ msg ∈ tx.messages, Sendable s.bus.mb (request msg) (clock msg.origin))))
  | .createTopic _ _ => isTrue trivial
  | .begin _ _ => isTrue trivial
  | .send _ _ _ _ _ => isTrue trivial

structure Sound (s : State) : Prop where
  counts : ValidCounts s.bus.mb
  origins : ∀ txID tx, s.bus.transactions.lookup txID = some tx →
    tx.messages.map (·.origin) = (List.range tx.messages.length).map (Prod.mk txID)
  atomic : Atomic s
  settled : ∀ txID ∈ s.succeeded, ∃ tx, s.bus.transactions.lookup txID = some tx ∧
    tx.state ≠ .pending
  known : ∀ origin, s.bus.mb.copies origin ≠ 0 →
    ∃ tx, s.bus.transactions.lookup origin.1 = some tx ∧ origin.2 < tx.messages.length

/-- The topics are created with a number of partitions that Send can divide by. -/
def Lawful : Op → Prop
  | .createTopic _ numPartitions => ValidCount numPartitions
  | _ => True

instance : DecidablePred Lawful
  | .createTopic _ numPartitions => inferInstanceAs (Decidable (ValidCount numPartitions))
  | .begin _ _ => isTrue trivial
  | .send _ _ _ _ _ => isTrue trivial
  | .commit _ _ => isTrue trivial

variable {txID : String} {tx : Transaction} {m : Message Origin}

theorem mem_origins
    (origins : tx.messages.map (·.origin) = (List.range tx.messages.length).map (Prod.mk txID))
    (mem : m ∈ tx.messages) : m.origin.1 = txID ∧ m.origin.2 < tx.messages.length := by
  have lt : m.origin ∈ tx.messages.map (·.origin) := mem_map_of_mem mem
  rw [origins] at lt
  obtain ⟨index, below, eq⟩ := mem_map.mp lt
  rw [← eq]
  exact ⟨rfl, mem_range.mp below⟩

theorem countP_origin
    (origins : tx.messages.map (·.origin) = (List.range tx.messages.length).map (Prod.mk txID))
    (mem : m ∈ tx.messages) : tx.messages.countP (·.origin = m.origin) = 1 := by
  have nodup : (tx.messages.map (·.origin)).Nodup := by
    rw [origins]
    exact nodup_range.map (Prod.mk_right_injective txID)
  have once := count_eq_one_of_mem nodup (mem_map_of_mem (f := (·.origin)) mem)
  rw [List.count, countP_map] at once
  rw [← once]
  apply countP_congr
  intro x _
  simp

theorem countP_origin_ne
    (origins : tx.messages.map (·.origin) = (List.range tx.messages.length).map (Prod.mk txID))
    {origin} (other : origin.1 ≠ txID) : tx.messages.countP (·.origin = origin) = 0 := by
  rw [countP_eq_zero]
  intro m mem eq
  rw [← of_decide_eq_true eq] at other
  exact other (mem_origins origins mem).1

theorem newState_sound : Sound newState := by
  have empty : ∀ origin, newState.bus.mb.copies origin = 0 := fun _ => rfl
  constructor
  · intro name topic hit
    cases hit
  · intro txID tx hit
    cases hit
  · intro txID tx hit
    cases hit
  · intro txID mem
    cases mem
  · intro origin stored
    exact absurd (empty origin) stored

section

variable {s : State}

theorem Sound.createTopic (inv : Sound s) {name numPartitions} (valid : ValidCount numPartitions)
    (made : createTopic s.bus.mb name numPartitions = .ok mb) :
    Sound { s with bus := { s.bus with mb } } := by
  have copies := copies_createTopic made
  refine ⟨inv.counts.createTopic valid made, inv.origins, ?_, inv.settled, ?_⟩
  · intro txID tx hit m mem
    exact (copies m.origin).trans (inv.atomic txID tx hit m mem)
  · intro origin stored
    exact inv.known origin (copies origin ▸ stored)

theorem Sound.begin (inv : Sound s) (fresh : s.bus.transactions.lookup txID = none)
    (ts : Int) : Sound { s with bus := beginTransaction s.bus txID ts } := by
  have ne : ∀ {id tx}, s.bus.transactions.lookup id = some tx →
      (beginTransaction s.bus txID ts).transactions.lookup id = some tx := by
    intro id tx hit
    exact lookup_insert_new (Finmap.lookup_eq_none.mp fresh) hit _
  refine ⟨inv.counts, ?_, ?_, ?_, ?_⟩
  · intro id tx hit
    rcases lookup_insert_cases hit with ⟨rfl, rfl⟩ | ⟨-, hit⟩
    · rfl
    · exact inv.origins id tx hit
  · intro id tx hit m mem
    rcases lookup_insert_cases hit with ⟨rfl, rfl⟩ | ⟨-, hit⟩
    · cases mem
    · exact inv.atomic id tx hit m mem
  · intro id mem
    obtain ⟨tx, hit, settled⟩ := inv.settled id mem
    exact ⟨tx, ne hit, settled⟩
  · intro origin stored
    obtain ⟨tx, hit, below⟩ := inv.known origin stored
    exact ⟨tx, ne hit, below⟩

variable {bus : Bus} {topicName : String} {k v : Bytes} {ts : Int}

theorem sendTransactional_ok {t} (added : sendTransactional bus txID topicName k v ts = .ok t) :
    ∃ tx, bus.transactions.lookup txID = some tx ∧ tx.state = .pending ∧
      t = { bus with transactions := bus.transactions.insert txID { tx with
        messages := tx.messages ++
          [preparedMessage txID topicName k v ts tx.messages.length] } } := by
  unfold sendTransactional at added
  split at added
  · cases added
  next tx hit =>
    split at added
    · cases added
    next pending =>
      exact ⟨tx, hit, not_not.mp pending, (Except.ok.inj added).symm⟩

theorem Sound.not_succeeded (inv : Sound s) (found : s.bus.transactions.lookup txID = some tx)
    (pending : tx.state = .pending) : txID ∉ s.succeeded := by
  intro done
  obtain ⟨eq, hit, settled⟩ := inv.settled txID done
  rw [found] at hit
  cases hit
  exact settled pending

theorem Sound.unsent (inv : Sound s) (found : s.bus.transactions.lookup txID = some tx) :
    s.bus.mb.copies (txID, tx.messages.length) = 0 := by
  by_contra stored
  obtain ⟨eq, hit, below⟩ := inv.known _ stored
  rw [found] at hit
  cases hit
  exact Nat.lt_irrefl _ below

theorem Sound.send (inv : Sound s)
    (added : sendTransactional s.bus txID topicName k v ts = .ok bus) :
    Sound { s with bus } := by
  obtain ⟨tx, found, pending, rfl⟩ := sendTransactional_ok added
  have x := inv.not_succeeded found pending
  refine ⟨inv.counts, ?_, ?_, ?_, ?_⟩
  · intro id other hit
    rcases lookup_insert_cases hit with ⟨rfl, rfl⟩ | ⟨-, hit⟩
    · simp [range_succ, inv.origins id tx found, preparedMessage]
    · exact inv.origins id other hit
  · intro id other hit m mem
    rcases lookup_insert_cases hit with ⟨rfl, rfl⟩ | ⟨-, hit⟩
    · rcases mem_append.mp mem with old | new
      · exact inv.atomic id tx found m old
      · rw [mem_singleton.mp new]
        exact (inv.unsent found).trans (if_neg x).symm
    · exact inv.atomic id other hit m mem
  · intro id mem
    obtain ⟨other, hit, settled⟩ := inv.settled id mem
    refine ⟨other, (Finmap.lookup_insert_of_ne _ ?_).trans hit, settled⟩
    rintro rfl
    exact x mem
  · intro origin stored
    obtain ⟨other, hit, below⟩ := inv.known origin stored
    rw [lookup_insert_ite]
    split
    next eq =>
      rw [eq, found] at hit
      cases hit
      refine ⟨_, rfl, ?_⟩
      rw [length_append]
      omega
    · exact ⟨other, hit, below⟩

/-- The state after a commit that sent these messages and not the rest. -/
def State.committed (s : State) (txID : String) (tx : Transaction) (state : TxState)
    (mb : PartitionedMessageBus Origin) (rest : List (Message Origin)) : State where
  bus := ⟨mb, s.bus.transactions.insert txID { tx with state }⟩
  succeeded := if rest = [] then insert txID s.succeeded else s.succeeded

variable {state : TxState}

theorem mem_succeeded_committed {id} :
    id ∈ (s.committed txID tx state mb rest).succeeded ↔
      id ∈ s.succeeded ∨ (id = txID ∧ rest = []) := by
  unfold State.committed
  split
  next empty =>
    simp [empty, or_comm]
  next remaining =>
    simp [remaining]

theorem step_commit (inv : Sound s) (hit : s.bus.transactions.lookup txID = some tx) (clock) :
    ∃ mb sent rest state, step s (.commit txID clock) = some (s.committed txID tx state mb rest) ∧
      tx.messages = sent ++ rest ∧ SentAll clock s.bus.mb mb sent rest ∧ state ≠ .pending := by
  obtain ⟨mb, sent, rest, res, ran, split, all, out⟩ :=
    sendAll_spec clock inv.counts tx.messages
  rcases out with ⟨rfl, rfl⟩ | ⟨halt, err, rfl⟩
  · refine ⟨mb, sent, [], .committed, ?_, split, all, by decide⟩
    simp only [step, commitTransaction, hit, ran, State.committed, if_true]
    rfl
  · refine ⟨mb, sent, rest, .aborted, ?_, split, all, by decide⟩
    simp only [step, commitTransaction, hit, ran, State.committed, if_neg halt]
    rfl

variable {sent : List (Message Origin)} (inv : Sound s)
  (found : s.bus.transactions.lookup txID = some tx) (split : tx.messages = sent ++ rest)
  (all : SentAll clock s.bus.mb mb sent rest) {origin : Origin}

include inv found split all

theorem Sound.copies_other (other : origin.1 ≠ txID) :
    mb.copies origin = s.bus.mb.copies origin := by
  have none := countP_origin_ne (inv.origins txID tx found) other
  rw [split, countP_append] at none
  rw [all.copies]
  omega

theorem Sound.known_commit (own : origin.1 = txID) (stored : mb.copies origin ≠ 0) :
    origin.2 < tx.messages.length := by
  rw [all.copies] at stored
  by_cases counted : sent.countP (·.origin = origin) = 0
  · obtain ⟨x, hit, below⟩ := inv.known origin (by omega)
    rw [own, found] at hit
    cases hit
    exact below
  · obtain ⟨m, mem, this⟩ := countP_pos_iff.mp (Nat.pos_of_ne_zero counted)
    rw [← of_decide_eq_true this]
    exact (mem_origins (inv.origins txID tx found) (split ▸ mem_append_left rest mem)).2

theorem Sound.commit (settled : state ≠ .pending)
    (whole : sent = [] ∨ (txID ∉ s.succeeded ∧ rest = [])) :
    Sound (s.committed txID tx state mb rest) := by
  have origins := inv.origins txID tx found
  refine ⟨validCounts_congr all.sizes inv.counts, ?_, ?_, ?_, ?_⟩
  · intro id other hit
    rcases lookup_insert_cases hit with ⟨rfl, rfl⟩ | ⟨-, hit⟩
    · exact origins
    · exact inv.origins id other hit
  · intro id other hit m mem
    rcases lookup_insert_cases hit with ⟨rfl, rfl⟩ | ⟨different, hit⟩
    · refine (all.copies m.origin).trans ?_
      rw [inv.atomic id tx found m mem]
      rcases whole with rfl | ⟨x, rfl⟩
      · -- nothing was sent, and there is a message, so some message remains
        have remaining : rest ≠ [] := by
          rintro rfl
          exact ne_nil_of_mem mem split
        simp [mem_succeeded_committed, remaining]
      · rw [append_nil] at split
        rw [if_neg x, if_pos (mem_succeeded_committed.mpr (.inr ⟨rfl, rfl⟩)), ← split,
          countP_origin origins mem]
    · have ne := (mem_origins (inv.origins id other hit) mem).1 ▸ different
      refine (inv.copies_other found split all ne).trans ?_
      rw [inv.atomic id other hit m mem]
      simp [mem_succeeded_committed, different]
  · intro id mem
    simp only [State.committed, lookup_insert_ite]
    by_cases eq : id = txID
    · exact ⟨_, if_pos eq, settled⟩
    · have pre := (mem_succeeded_committed.mp mem).resolve_right fun last => eq last.1
      rw [if_neg eq]
      exact inv.settled id pre
  · intro origin stored
    simp only [State.committed, lookup_insert_ite] at stored ⊢
    by_cases own : origin.1 = txID
    · exact ⟨_, if_pos own, inv.known_commit found split all own stored⟩
    · rw [if_neg own]
      rw [inv.copies_other found split all own] at stored
      exact inv.known origin stored

end

variable {s : State}

theorem step_sound {t op} (inv : Sound s) (lawful : Lawful op) (safe : CommitSafe s op)
    (took : step s op = some t) : Sound t := by
  cases op with
  | createTopic name n =>
    simp only [step] at took
    split at took
    · exact some.inj took ▸ inv
    next mb created =>
      exact some.inj took ▸ inv.createTopic lawful created
  | begin txID ts =>
    obtain ⟨fresh, moved⟩ := ite_none_left_eq_some.mp took
    exact some.inj moved ▸ inv.begin (by simpa using fresh) ts
  | send txID topicName k v ts =>
    simp only [step] at took
    split at took
    · exact some.inj took ▸ inv
    next bus added =>
      exact some.inj took ▸ inv.send added
  | commit txID clock =>
    cases found : s.bus.transactions.lookup txID with
    | none =>
      simp only [step, commitTransaction, found] at took
      exact some.inj took ▸ inv
    | some tx =>
      obtain ⟨mb, sent, rest, state, moved, split, all, settled⟩ :=
        step_commit inv found clock
      obtain rfl := some.inj (moved.symm.trans took)
      apply inv.commit found split all settled
      rcases safe tx found with stuck | ⟨x, goes⟩
      · left
        cases sent with
        | nil => rfl
        | cons m sent =>
          exact absurd (all.sendable m mem_cons_self) (stuck m (by rw [split]; rfl))
      · right
        refine ⟨x, ?_⟩
        cases rest with
        | nil => rfl
        | cons m rest =>
          exact absurd (goes m (by rw [split]; simp)) (all.stopped m rfl)

/-- A commit that keeps the messages atomic sends nothing, or everything for the first time. -/
theorem commitSafe_of_atomic (inv : Sound s) {txID clock}
    (good : ∀ next, step s (.commit txID clock) = some next → Atomic next) :
    CommitSafe s (.commit txID clock) := by
  intro tx hit
  obtain ⟨mb, sent, rest, state, moved, split, all, -⟩ := step_commit inv hit clock
  cases sent with
  | nil =>
    left
    rw [split]
    exact all.stopped
  | cons m sent =>
    right
    have mem : m ∈ tx.messages := by rw [split]; exact mem_cons_self
    have pre := inv.atomic txID tx hit m mem
    have after := good _ moved txID _ (Finmap.lookup_insert _) m mem
    have cnt : 0 < (m :: sent).countP (·.origin = m.origin) :=
      countP_pos_iff.mpr ⟨m, mem_cons_self, by simp⟩
    replace after := (all.copies m.origin).symm.trans after
    have x : txID ∉ s.succeeded := by
      intro done
      rw [if_pos done] at pre
      rw [if_pos (mem_succeeded_committed.mpr (.inl done))] at after
      omega
    have complete : rest = [] := by
      by_contra remaining
      rw [if_neg fun done => (mem_succeeded_committed.mp done).elim x
        fun last => remaining last.2] at after
      omega
    subst complete
    rw [append_nil] at split
    exact ⟨x, split ▸ all.sendable⟩

/-- The messages of all transactions are atomic throughout a run exactly when every commit finds
all topics it sends to and is the first of its transaction to do so, or sends nothing. -/
theorem transactions_atomic_iff {ops : List Op} (lawful : ∀ op ∈ ops, Lawful op) :
    Throughout step Atomic newState ops ↔ Along step CommitSafe newState ops := by
  apply throughout_iff_along Sound newState_sound (fun _ sound => sound.atomic) Lawful
    (fun _ _ _ sound lawful safe stepped => step_sound sound lawful safe stepped) ?_ lawful
  intro s op sound _ good
  cases op with
  | commit txID clock => exact commitSafe_of_atomic sound good
  | createTopic name numPartitions => trivial
  | begin txID timestamp => trivial
  | send txID topicName key value timestamp => trivial

def retried : List Op :=
  [.begin "tx-1" 0, .send "tx-1" "t" [1] [7] 0, .commit "tx-1" fun _ => ⟨0, 0⟩,
    .createTopic "t" 2, .commit "tx-1" fun _ => ⟨0, 0⟩]

theorem transactions_atomic_iff_retried :
    (exec step newState retried).isSome = true ∧ Throughout step Atomic newState retried := by
  refine ⟨by decide, (transactions_atomic_iff (by decide)).mpr ?_⟩
  exact along_of_decide (by decide)

/-- A second commit sends the message again; and a commit that fails at the second message
leaves the first one in its topic. -/
theorem commit_not_atomic :
    ((exec step newState [.createTopic "t" 1, .begin "tx-1" 0, .send "tx-1" "t" [1] [7] 0,
      .commit "tx-1" fun _ => ⟨0, 0⟩, .commit "tx-1" fun _ => ⟨0, 0⟩]).map fun s =>
        (s.succeeded, s.bus.mb.copies ("tx-1", 0))) = some ({"tx-1"}, 2) ∧
    ((exec step newState [.createTopic "t" 1, .begin "tx-1" 0, .send "tx-1" "t" [1] [7] 0,
      .send "tx-1" "u" [1] [8] 0, .commit "tx-1" fun _ => ⟨0, 0⟩]).map fun s =>
        (s.succeeded, s.bus.mb.copies ("tx-1", 0))) = some (∅, 1) := by
  decide

end AsyncPractice.ExactlyOnceMessageBus
