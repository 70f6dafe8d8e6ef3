import AsyncPractice.Causality
import AsyncPractice.GoMap
import AsyncPractice.SliceSort
import AsyncPractice.NumberedName
import Mathlib.Data.Prod.Lex
import Mathlib.Data.String.Basic

/- Total order by Lamport timestamps, solution2_LamportTimestamp. Clocks are natural numbers,
which the number of operations so far bounds. -/
namespace AsyncPractice.Lamport

section

structure Message where
  id : String
  sender : String
  content : String
  timestamp : Nat

structure Process where
  id : String
  clock : Nat
  messages : List Message

def createProcess (id : String) : Process := ⟨id, 0, []⟩

def tick (p : Process) : Nat := p.clock + 1

def messageID (id : String) (ts : Nat) : String := id ++ "_" ++ toString ts

def stamp (p : Process) (content : String) : Message :=
  ⟨messageID p.id (tick p), p.id, content, tick p⟩

def send (p : Process) (content : String) : Process :=
  { p with clock := tick p, messages := p.messages ++ [stamp p content] }

def receive (p : Process) (msg : Message) : Process :=
  let newClock := if msg.timestamp ≤ p.clock then p.clock else msg.timestamp
  { p with clock := newClock + 1, messages := p.messages ++ [msg] }

structure Collected where
  allMessages : List Message
  seen : GoMap String Bool

def collect (c : Collected) (msg : Message) : Collected :=
  if (c.seen.lookup msg.id).getD false then c
  else ⟨c.allMessages ++ [msg], c.seen.insert msg.id true⟩

def collectAll (processes : List Process) : Collected :=
  processes.foldl (fun c p => p.messages.foldl collect c) ⟨[], ∅⟩

def less (a b : Message) : Prop :=
  if a.timestamp = b.timestamp then a.sender < b.sender else a.timestamp < b.timestamp

instance : DecidableRel less := fun a b =>
  inferInstanceAs (Decidable (if a.timestamp = b.timestamp then a.sender < b.sender
    else a.timestamp < b.timestamp))

def getTotalOrder (processes : List Process) : List Message :=
  SliceSort.sortSlice less (collectAll processes).allMessages

/-- `network` are the messages that send calls have returned, each of which may be received
anywhere, at any time and more than once. `history` only observes. -/
structure State (ι : Type) where
  process : ι → Process
  network : List Message
  history : List (Causality.Event ι Message)

variable {ι : Type}

def init (name : ι → String) : State ι := ⟨fun i => createProcess (name i), [], []⟩

inductive Action (ι : Type)
  | send (i : ι) (content : String)
  | receive (i : ι) (k : Nat)

variable [DecidableEq ι]

def sendStep (s : State ι) (i : ι) (content : String) : State ι where
  process := Function.update s.process i (send (s.process i) content)
  network := s.network ++ [stamp (s.process i) content]
  history := s.history ++ [.send i (stamp (s.process i) content)]

def receiveStep (s : State ι) (i : ι) (msg : Message) : State ι where
  process := Function.update s.process i (receive (s.process i) msg)
  network := s.network
  history := s.history ++ [.deliver i msg]

def step (s : State ι) : Action ι → Option (State ι)
  | .send i content => some (sendStep s i content)
  | .receive i k => s.network[k]?.map (receiveStep s i)

theorem step_cases {s t : State ι} {a : Action ι} (took : step s a = some t) :
    (∃ i c, t = sendStep s i c) ∨ ∃ i, ∃ m ∈ s.network, t = receiveStep s i m := by
  cases a with
  | send i c =>
    cases took
    exact .inl ⟨i, c, rfl⟩
  | receive i k =>
    obtain ⟨m, hit, rfl⟩ := Option.map_eq_some_iff.mp took
    exact .inr ⟨i, m, List.mem_of_getElem? hit, rfl⟩

theorem clock_receive (p m) : (receive p m).clock = max p.clock m.timestamp + 1 := by
  unfold receive
  dsimp only
  split <;> omega

end

section

open List Causality Function Runs

/-- The formatted ID determines the sender and the timestamp, whatever the sender's name. -/
theorem messageID_injective {id id' ts ts'} (eq : messageID id ts = messageID id' ts') :
    id = id' ∧ ts = ts' :=
  NumberedName.numbered_injective '_' rfl eq

variable {ι : Type}

structure Sound (name : ι → String) (s : State ι) : Prop where
  named : ∀ i, (s.process i).id = name i
  known : ∀ i m, Knows i s.history m ↔ m ∈ (s.process i).messages
  clocked : ∀ i, ∀ m ∈ (s.process i).messages, m.timestamp ≤ (s.process i).clock
  sent : ∀ m ∈ s.network, m.id = messageID m.sender m.timestamp ∧
    ∃ i, m.sender = name i ∧ m ∈ (s.process i).messages
  held : ∀ i, ∀ m ∈ (s.process i).messages, m ∈ s.network
  unique : ∀ m ∈ s.network, ∀ m' ∈ s.network,
    m.sender = m'.sender → m.timestamp = m'.timestamp → m = m'
  causal : ∀ first second, Direct s.history first second → first.timestamp < second.timestamp

theorem init_sound (name : ι → String) : Sound name (init name) := by
  constructor <;> simp [init, createProcess, Knows, Direct]

variable {name : ι → String} {s : State ι} {m : Message} {i : ι}

theorem Sound.sender_clock (distinct : Injective name) (inv : Sound name s) (sent : m ∈ s.network)
    (sender : m.sender = name i) : m.timestamp ≤ (s.process i).clock := by
  obtain ⟨-, j, named, held⟩ := inv.sent m sent
  have eq : i = j := distinct (sender.symm.trans named)
  subst eq
  exact inv.clocked i m held

theorem Sound.timestamp_lt (inv : Sound name s) {first second}
    (causal : HappensBefore s.history first second) : first.timestamp < second.timestamp :=
  happensBefore_of_direct inv.causal (fun _ _ _ => lt_trans) causal

variable [DecidableEq ι]

theorem mem_messages_sendStep {j content} :
    m ∈ ((sendStep s i content).process j).messages ↔
      m ∈ (s.process j).messages ∨ j = i ∧ m = stamp (s.process i) content := by
  by_cases same : j = i
  · subst same
    simp [sendStep, send]
  · simp [sendStep, same]

theorem mem_messages_receiveStep {j msg} :
    m ∈ ((receiveStep s i msg).process j).messages ↔
      m ∈ (s.process j).messages ∨ j = i ∧ m = msg := by
  by_cases same : j = i
  · subst same
    simp [receiveStep, receive]
  · simp [receiveStep, same]

theorem clock_sendStep (s) (i j : ι) (content) :
    ((sendStep s i content).process j).clock =
      if j = i then (s.process i).clock + 1 else (s.process j).clock := by
  by_cases same : j = i
  · subst same
    simp [sendStep, send, tick]
  · simp [sendStep, same]

theorem clock_receiveStep (s) (i j : ι) (msg) :
    ((receiveStep s i msg).process j).clock =
      if j = i then max (s.process i).clock msg.timestamp + 1 else (s.process j).clock := by
  by_cases same : j = i
  · subst same
    simp [receiveStep, clock_receive]
  · simp [receiveStep, same]

theorem id_update (s : State ι) (i j) {p} (eq : p.id = (s.process i).id) :
    (update s.process i p j).id = (s.process j).id := by
  rw [apply_update (fun _ => Process.id), eq, update_eq_self_iff.mpr rfl]

theorem sendStep_sound (distinct : Injective name) (inv : Sound name s) (i : ι) (c) :
    Sound name (sendStep s i c) := by
  have fresh : ∀ m ∈ s.network, m.sender = name i → m.timestamp < tick (s.process i) := by
    intro m sent sender
    have came := inv.sender_clock distinct sent sender
    unfold tick
    omega
  constructor
  · intro j
    exact (id_update s i j (p := send (s.process i) c) rfl).trans (inv.named j)
  · intro j m
    rw [mem_messages_sendStep, ← inv.known j m]
    exact knows_snoc_send
  · intro j m mem
    rw [clock_sendStep]
    rcases mem_messages_sendStep.mp mem with mem | ⟨rfl, rfl⟩
    · have came := inv.clocked j m mem
      split
      next eq =>
        subst eq
        omega
      · exact came
    · rw [if_pos rfl]
      exact le_rfl
  · refine forall_mem_snoc (fun m mem => ?_)
      ⟨rfl, i, inv.named i, mem_messages_sendStep.mpr (.inr ⟨rfl, rfl⟩)⟩
    obtain ⟨format, j, named, held⟩ := inv.sent m mem
    exact ⟨format, j, named, mem_messages_sendStep.mpr (.inl held)⟩
  · intro j m mem
    rcases mem_messages_sendStep.mp mem with mem | ⟨-, rfl⟩
    · exact mem_append_left _ (inv.held j m mem)
    · exact mem_append_right _ (mem_singleton_self _)
  · intro m left m' right sender stamped
    have named : (stamp (s.process i) c).sender = name i := inv.named i
    rcases mem_append.mp left with left | left <;> rcases mem_append.mp right with right | right
    · exact inv.unique m left m' right sender stamped
    · rw [mem_singleton] at right
      have pre := fresh m left (by rw [sender, right, named])
      rw [stamped, right] at pre
      exact absurd pre (lt_irrefl _)
    · rw [mem_singleton] at left
      have pre := fresh m' right (by rw [← sender, left, named])
      rw [← stamped, left] at pre
      exact absurd pre (lt_irrefl _)
    · rw [mem_singleton.mp left, mem_singleton.mp right]
  · intro x y direct
    rcases direct_snoc direct with direct | ⟨process, sent, knows⟩
    · exact inv.causal x y direct
    · obtain ⟨rfl, rfl⟩ := Causality.Event.send.inj sent
      have came := inv.clocked i x ((inv.known i x).mp knows)
      exact Nat.lt_succ_of_le came

theorem receiveStep_sound (inv : Sound name s) (i : ι) {msg} (sent : msg ∈ s.network) :
    Sound name (receiveStep s i msg) := by
  constructor
  · intro j
    exact (id_update s i j (p := receive (s.process i) msg) rfl).trans (inv.named j)
  · intro j m
    rw [mem_messages_receiveStep, ← inv.known j m]
    exact knows_snoc_deliver
  · intro j m mem
    rw [clock_receiveStep]
    rcases mem_messages_receiveStep.mp mem with mem | ⟨rfl, rfl⟩
    · have came := inv.clocked j m mem
      split
      next eq =>
        subst eq
        omega
      · exact came
    · rw [if_pos rfl]
      omega
  · intro m mem
    obtain ⟨format, j, named, held⟩ := inv.sent m mem
    exact ⟨format, j, named, mem_messages_receiveStep.mpr (.inl held)⟩
  · intro j m mem
    rcases mem_messages_receiveStep.mp mem with mem | ⟨-, rfl⟩
    · exact inv.held j m mem
    · exact sent
  · exact inv.unique
  · intro x y direct
    rcases direct_snoc direct with direct | ⟨process, impossible, -⟩
    · exact inv.causal x y direct
    · cases impossible

theorem reachable_sound (distinct : Injective name) {actions}
    (run : exec step (init name) actions = some s) : Sound name s := by
  refine exec_invariant (Sound name) (init_sound name) ?_ run
  intro s a t inv took
  rcases step_cases took with ⟨i, c, rfl⟩ | ⟨i, msg, sent, rfl⟩
  · exact sendStep_sound distinct inv i c
  · exact receiveStep_sound inv i sent

/-- A clock counts at most the operations so far, so that the 64-bit clocks of the source do
not overflow in fewer than 2 ^ 63 of them. -/
theorem clock_le_length {actions} (run : exec step (init name) actions = some s) :
    (∀ i, (s.process i).clock ≤ actions.length) ∧
      ∀ m ∈ s.network, m.timestamp ≤ actions.length := by
  refine exec_history (fun actions s => (∀ i, (s.process i).clock ≤ actions.length) ∧
    ∀ m ∈ s.network, m.timestamp ≤ actions.length) ⟨by simp [init, createProcess], by simp [init]⟩
    ?_ run
  intro actions s a t _ held took
  obtain ⟨clocks, stamps⟩ := held
  rw [length_append, length_singleton]
  rcases step_cases took with ⟨i, c, rfl⟩ | ⟨i, msg, sent, rfl⟩
  · have mine := clocks i
    constructor
    · intro j
      have other := clocks j
      rw [clock_sendStep]
      split <;> omega
    · refine forall_mem_snoc (fun m mem => ?_) (Nat.succ_le_succ mine)
      have bound := stamps m mem
      omega
  · have mine := clocks i
    have inv := stamps msg sent
    constructor
    · intro j
      have other := clocks j
      rw [clock_receiveStep]
      split <;> omega
    · intro m mem
      have bound := stamps m mem
      omega

theorem clock_le_length_received :
    ∃ s, exec step (init (toString : Bool → String)) [.send true "hi", .receive false 0] = some s ∧
      ∀ i, (s.process i).clock ≤ 2 :=
  exists_exec (fun _ => True) (by decide) fun _ run _ => (clock_le_length run).1

end

open List Causality Runs SliceSort

/-- The collecting loop after the given messages: one message for each ID, no ID lost. -/
structure Gathered (messages : List Message) (c : Collected) : Prop where
  seen : ∀ id, (c.seen.lookup id).getD false = true ↔ id ∈ c.allMessages.map Message.id
  nodup : (c.allMessages.map Message.id).Nodup
  subset : ∀ m ∈ c.allMessages, m ∈ messages
  covered : ∀ m ∈ messages, m.id ∈ c.allMessages.map Message.id

variable {ms : List Message} {c : Collected}

theorem Gathered.collect (got : Gathered ms c) (msg) :
    Gathered (ms ++ [msg]) (collect c msg) := by
  unfold Lamport.collect
  split
  next old =>
    have hit := (got.seen msg.id).mp old
    refine ⟨got.seen, got.nodup, ?_, ?_⟩
    · intro m mem
      exact mem_append_left _ (got.subset m mem)
    · exact forall_mem_snoc got.covered hit
  next new =>
    have absent : msg.id ∉ c.allMessages.map Message.id := fun mem =>
      new ((got.seen msg.id).mpr mem)
    constructor
    · intro id
      dsimp only
      rw [GoMap.lookup_insert_ite, map_append, mem_append, ← got.seen id]
      split <;> simp_all
    · rw [map_append, map_singleton]
      exact got.nodup.append (nodup_singleton _) (by simpa using absent)
    · intro m mem
      rcases mem_append.mp mem with mem | mem
      · exact mem_append_left _ (got.subset m mem)
      · exact mem_append_right _ mem
    · intro m mem
      rw [map_append, mem_append]
      rcases mem_append.mp mem with mem | mem
      · exact .inl (got.covered m mem)
      · exact .inr (mem_map_of_mem mem)

theorem gathered_foldl (ms) : Gathered ms (ms.foldl collect ⟨[], ∅⟩) := by
  induction ms using reverseRecOn with
  | nil => constructor <;> simp
  | append_singleton ms m ih =>
    rw [foldl_append]
    exact ih.collect m

theorem collectAll_gathered (processes) :
    Gathered (processes.flatMap Process.messages) (collectAll processes) := by
  rw [collectAll, ← foldl_flatMap]
  exact gathered_foldl _

/-- Where an ID names only one message, nothing but duplicates is left out. -/
theorem Gathered.mem_iff (got : Gathered ms c)
    (unique : ∀ m ∈ ms, ∀ m' ∈ ms, m.id = m'.id → m = m') (m) :
    m ∈ c.allMessages ↔ m ∈ ms := by
  constructor
  · exact got.subset m
  · intro mem
    obtain ⟨kept, lt, eq⟩ := mem_map.mp (got.covered m mem)
    rw [← unique kept (got.subset kept lt) m mem eq]
    exact lt

/-- The pair the messages are ordered by. -/
def Message.key (m : Message) : Nat ×ₗ String := toLex (m.timestamp, m.sender)

theorem key_lt_iff (a b : Message) :
    a.key < b.key ↔ a.timestamp < b.timestamp ∨ a.timestamp = b.timestamp ∧ a.sender < b.sender :=
  Prod.Lex.toLex_lt_toLex

theorem less_iff (a b : Message) : less a b ↔ a.key < b.key := by
  rw [key_lt_iff, less]
  split
  next eq =>
    simp [eq]
  next ne =>
    simp [ne]

section

variable {processes : List Process}

/-- Messages of which the ID, like the pair of timestamp and sender, names only one. -/
structure Distinguished (messages : List Message) : Prop where
  byID : ∀ m ∈ messages, ∀ m' ∈ messages, m.id = m'.id → m = m'
  byKey : ∀ m ∈ messages, ∀ m' ∈ messages, m.key = m'.key → m = m'

variable (distinguished : Distinguished (processes.flatMap Process.messages))
include distinguished

theorem mem_getTotalOrder (m) : m ∈ getTotalOrder processes ↔ ∃ p ∈ processes, m ∈ p.messages := by
  rw [getTotalOrder, (sortSlice_perm _ _).mem_iff,
    (collectAll_gathered processes).mem_iff distinguished.byID, mem_flatMap]

theorem Distinguished.collected :
    ∀ m ∈ (collectAll processes).allMessages, ∀ m' ∈ (collectAll processes).allMessages,
      m.key = m'.key → m = m' := by
  have got := collectAll_gathered processes
  intro m left m' right
  exact distinguished.byKey m (got.subset m left) m' (got.subset m' right)

theorem getTotalOrder_strict : (getTotalOrder processes).Pairwise (fun a b => a.key < b.key) :=
  sortSlice_strict distinguished.collected less_iff
    (List.Nodup.of_map _ (collectAll_gathered processes).nodup)

omit distinguished

theorem getTotalOrder_perm {others} (perm : others.Perm processes)
    (distinguished : Distinguished (processes.flatMap Process.messages)) :
    getTotalOrder others = getTotalOrder processes := by
  have ms : (others.flatMap Process.messages).Perm (processes.flatMap Process.messages) :=
    perm.flatMap_right _
  have gathered := collectAll_gathered processes
  have gathered' := collectAll_gathered others
  have got : (collectAll others).allMessages.Perm (collectAll processes).allMessages := by
    rw [perm_ext_iff_of_nodup (List.Nodup.of_map _ gathered'.nodup)
      (List.Nodup.of_map _ gathered.nodup)]
    intro m
    rw [gathered.mem_iff distinguished.byID, gathered'.mem_iff ?_, ms.mem_iff]
    intro m left m' right
    exact distinguished.byID m (ms.mem_iff.mp left) m' (ms.mem_iff.mp right)
  exact eq_sortSlice distinguished.collected less_iff ((sortSlice_perm _ _).trans got)
    (sortSlice_sorted less_iff _)

end

variable {ι : Type}

theorem Sound.distinguished {name s} (inv : Sound name s) (order : List ι) :
    Distinguished ((order.map s.process).flatMap Process.messages) := by
  have sent : ∀ m ∈ (order.map s.process).flatMap Process.messages, m ∈ s.network := by
    intro m mem
    obtain ⟨p, listed, held⟩ := mem_flatMap.mp mem
    obtain ⟨i, -, rfl⟩ := mem_map.mp listed
    exact inv.held i m held
  constructor
  · intro m left m' right eq
    rw [(inv.sent m (sent m left)).1, (inv.sent m' (sent m' right)).1] at eq
    obtain ⟨sender, stamped⟩ := messageID_injective eq
    exact inv.unique m (sent m left) m' (sent m' right) sender stamped
  · intro m left m' right eq
    obtain ⟨stamped, sender⟩ := Prod.mk.inj (toLex_inj.mp eq)
    exact inv.unique m (sent m left) m' (sent m' right) sender stamped

variable [DecidableEq ι]

/-- Lamport timestamps extend happens-before, and `getTotalOrder` lists the messages of any of
the processes once each, by timestamp and sender, whatever the order the processes come in. -/
theorem total_order_extends_happens_before (name : ι → String)
    (distinct : Function.Injective name) (actions : List (Action ι)) (s : State ι)
    (run : exec step (init name) actions = some s) :
    (∀ m₁ m₂, HappensBefore s.history m₁ m₂ → m₁.timestamp < m₂.timestamp) ∧
    ∀ order : List ι,
      (∀ m, m ∈ getTotalOrder (order.map s.process) ↔ ∃ i ∈ order, m ∈ (s.process i).messages) ∧
      (getTotalOrder (order.map s.process)).Nodup ∧
      (getTotalOrder (order.map s.process)).Pairwise (fun a b =>
        a.timestamp < b.timestamp ∨ a.timestamp = b.timestamp ∧ a.sender < b.sender) ∧
      (∀ order' : List ι, order'.Perm order →
        getTotalOrder (order'.map s.process) = getTotalOrder (order.map s.process)) ∧
      ∀ m₁ m₂, HappensBefore s.history m₁ m₂ → m₁ ∈ getTotalOrder (order.map s.process) →
        Precedes (getTotalOrder (order.map s.process)) m₁ m₂ := by
  have sound := reachable_sound distinct run
  refine ⟨fun m₁ m₂ causal => sound.timestamp_lt causal, fun order => ?_⟩
  have distinguished := sound.distinguished order
  have strict := getTotalOrder_strict distinguished
  refine ⟨?_, ?_, ?_, ?_, ?_⟩
  · intro m
    rw [mem_getTotalOrder distinguished]
    simp
  · exact strict.imp fun less same => by simp [same] at less
  · exact strict.imp fun {a b} => (key_lt_iff a b).mp
  · intro order' perm
    exact getTotalOrder_perm (perm.map s.process) distinguished
  · intro m₁ m₂ causal member
    apply precedes_of_pairwise strict (fun _ _ => lt_asymm) member
    exact (key_lt_iff m₁ m₂).mpr (Or.inl (sound.timestamp_lt causal))

def replyName (i : Bool) : String := if i then "P2" else "P1"

def replyActions : List (Action Bool) :=
  [.send false "hello", .send true "hi", .receive true 0, .send true "reply", .receive false 2]

theorem total_order_extends_happens_before_reply :
    ∃ s, exec step (init replyName) replyActions = some s ∧
      (getTotalOrder ([true, false].map s.process)).map Message.content = ["hello", "hi", "reply"] ∧
      (∀ m₁ m₂, HappensBefore s.history m₁ m₂ → m₁.timestamp < m₂.timestamp) ∧
      getTotalOrder ([false, true].map s.process) =
        getTotalOrder ([true, false].map s.process) := by
  refine exists_exec (fun s => (getTotalOrder ([true, false].map s.process)).map Message.content =
    ["hello", "hi", "reply"]) (by decide) ?_
  intro s run contents
  have distinct : Function.Injective replyName := by
    decide
  obtain ⟨stamps, orders⟩ :=
    total_order_extends_happens_before replyName distinct replyActions s run
  exact ⟨contents, stamps, (orders [true, false]).2.2.2.1 [false, true] (by decide)⟩

end AsyncPractice.Lamport
