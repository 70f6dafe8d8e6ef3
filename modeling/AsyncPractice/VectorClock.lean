import Mathlib.Data.Fintype.Basic
import AsyncPractice.Causality

/- Causal broadcast with vector clocks, solution1_VectorClock. The receiver loop of a node
gives up the node's mutex between the readiness test and the delivery it leads to, and
between one pending message and the next; sendMessage may run in each of these gaps. -/
namespace AsyncPractice.VectorClock

section

/-- The map from node IDs to counters. Its keys are the IDs of all nodes from
newVectorClock on, so that it is a total function. -/
abbrev Clock (ι : Type) := ι → Nat

structure Message (ι : Type) where
  id : String
  sender : ι
  content : String
  vc : Clock ι

/-- Where the loop of processMessages stands. A message that passed isCausallyReady and is
to be delivered next is kept in the phase. -/
inductive Phase (ι : Type)
  | idle
  | accepted (msg : Message ι)
  | scanning (todo kept : List (Message ι))
  | enabled (pm : Message ι) (todo kept : List (Message ι))
  | stopped

/-- A node together with the local variables of its receiver loop. -/
structure Node (ι : Type) where
  vc : Clock ι
  delivered : List (Message ι)
  pending : List (Message ι)
  phase : Phase ι

/-- `network` are the messages sent so far, any of which may arrive anywhere at any time and
more than once. `history` only observes. -/
structure State (ι : Type) where
  node : ι → Node ι
  network : List (Message ι)
  history : List (Causality.Event ι (Message ι))

variable {ι : Type}

def newVectorClock : Clock ι := fun _ => 0

def createNode : Node ι := ⟨newVectorClock, [], [], .idle⟩

def init : State ι := ⟨fun _ => createNode, [], []⟩

/-- The loop that raises each component of the node's clock to that of the message. -/
def merge (vc other : Clock ι) : Clock ι :=
  fun k => if vc k < other k then other k else vc k

variable [DecidableEq ι]

def tick (vc : Clock ι) (k : ι) : Clock ι := Function.update vc k (vc k + 1)

def isCausallyReady (msg : Message ι) (vc : Clock ι) : Prop :=
  msg.vc msg.sender = tick vc msg.sender msg.sender ∧
    ∀ k, k ≠ msg.sender → msg.vc k ≤ vc k

instance [Fintype ι] (msg : Message ι) (vc : Clock ι) : Decidable (isCausallyReady msg vc) :=
  inferInstanceAs (Decidable (_ ∧ _))

def State.set (s : State ι) (n : ι) (node : Node ι) : State ι :=
  { s with node := Function.update s.node n node }

def stamp [ToString ι] (n : ι) (content : String) (vc : Clock ι) : Message ι :=
  ⟨toString n ++ "_" ++ toString (vc n), n, content, vc⟩

def sendMessage [ToString ι] (s : State ι) (n : ι) (content : String) : State ι :=
  let vc := tick (s.node n).vc n
  let msg := stamp n content vc
  { s.set n { s.node n with vc := vc } with
    network := s.network ++ [msg]
    history := s.history ++ [.send n msg] }

def deliver (s : State ι) (n : ι) (msg : Message ι) (phase : Phase ι) : State ι :=
  { s.set n { s.node n with
      vc := merge (s.node n).vc msg.vc
      delivered := (s.node n).delivered ++ [msg]
      phase := phase } with
    history := s.history ++ [.deliver n msg] }

/-- A message taken from the inbox, up to the end of its readiness test. -/
def receiveMessage [Fintype ι] (node : Node ι) (msg : Message ι) : Node ι :=
  if msg.content = "STOP" then
    { node with phase := .stopped }
  else if isCausallyReady msg node.vc then
    { node with phase := .accepted msg }
  else
    { node with pending := node.pending ++ [msg] }

def processMessages [Fintype ι] (s : State ι) (n : ι) : Option (State ι) :=
  let node := s.node n
  match node.phase with
  | .accepted msg => some (deliver s n msg (.scanning node.pending []))
  | .scanning (pm :: todo) kept =>
    if isCausallyReady pm node.vc then
      some (s.set n { node with phase := .enabled pm todo kept })
    else
      some (s.set n { node with phase := .scanning todo (kept ++ [pm]) })
  | .enabled pm todo kept => some (deliver s n pm (.scanning todo kept))
  | .scanning [] kept => some (s.set n { node with pending := kept, phase := .idle })
  | _ => none

inductive Action (ι : Type)
  | send (n : ι) (content : String)
  | receive (n : ι) (i : Nat)
  | stop (n : ι)
  | proceed (n : ι)

def step [Fintype ι] [ToString ι] (s : State ι) : Action ι → Option (State ι)
  | .send n content => some (sendMessage s n content)
  | .receive n i =>
    match (s.node n).phase, s.network[i]? with
    | .idle, some msg =>
      -- The broadcast loop hands a message to every node but its sender.
      if msg.sender = n then none else some (s.set n (receiveMessage (s.node n) msg))
    | _, _ => none
  | .stop n =>
    match (s.node n).phase with
    | .idle => some (s.set n { s.node n with phase := .stopped })
    | _ => none
  | .proceed n => processMessages s n

end

open List Causality

variable {ι : Type}

/-- The stamp of `second` covers that of `first` and goes beyond it for its own sender. -/
def Earlier (first second : Message ι) : Prop :=
  (∀ k, first.vc k ≤ second.vc k) ∧ first.vc second.sender < second.vc second.sender

variable {x : Message ι}

theorem Earlier.trans {second third} (left : Earlier x second) (right : Earlier second third) :
    Earlier x third :=
  ⟨fun k => le_trans (left.1 k) (right.1 k), lt_of_le_of_lt (left.1 _) right.2⟩

theorem le_merge_left (vc other) (k : ι) : vc k ≤ merge vc other k := by
  unfold merge
  split <;> omega

theorem le_merge_right (vc other) (k : ι) : other k ≤ merge vc other k := by
  unfold merge
  split <;> omega

/-- What the clocks say about the messages sent and delivered so far. `delivered` is the
heart: a node has delivered exactly the messages its clock counts. -/
structure Sound (s : State ι) : Prop where
  stamps : ∀ m ∈ s.network, ∀ k, m.vc k ≤ (s.node k).vc k
  clocks : ∀ n k, (s.node n).vc k ≤ (s.node k).vc k
  unique : ∀ m ∈ s.network, ∀ m' ∈ s.network, m.sender = m'.sender →
    m.vc m.sender = m'.vc m'.sender → m = m'
  delivered : ∀ n m, m ∈ (s.node n).delivered ↔
    m ∈ s.network ∧ m.sender ≠ n ∧ m.vc m.sender ≤ (s.node n).vc m.sender
  known : ∀ n m, Knows n s.history m → ∀ k, m.vc k ≤ (s.node n).vc k
  edges : ∀ first second, Direct s.history first second → Earlier first second
  ordered : ∀ n, ∀ first ∈ s.network, first.sender ≠ n → ∀ second, Earlier first second →
    Precedes (s.node n).delivered first second
  nodup : ∀ n, (s.node n).delivered.Nodup

theorem init_sound : Sound (init : State ι) := by
  refine ⟨?_, ?_, ?_, ?_, ?_, ?_, ?_, ?_⟩
  · simp [init]
  · exact fun _ _ => le_refl 0
  · simp [init]
  · simp [init, createNode]
  · simp [init, Knows]
  · rintro x y ⟨pre, p, after, split, -⟩
    simp [init] at split
  · exact fun _ _ mem => by simp [init] at mem
  · exact fun _ => nodup_nil

variable {s : State ι}

theorem Sound.congr {t} (inv : Sound s) (network : t.network = s.network)
    (hist : t.history = s.history) (clock : ∀ n, (t.node n).vc = (s.node n).vc)
    (delivered : ∀ n, (t.node n).delivered = (s.node n).delivered) : Sound t := by
  refine ⟨?_, ?_, ?_, ?_, ?_, ?_, ?_, ?_⟩
  · simpa only [network, clock] using inv.stamps
  · simpa only [clock] using inv.clocks
  · simpa only [network] using inv.unique
  · simpa only [network, clock, delivered] using inv.delivered
  · simpa only [hist, clock] using inv.known
  · simpa only [hist] using inv.edges
  · simpa only [network, delivered] using inv.ordered
  · simpa only [delivered] using inv.nodup

variable {n : ι}

theorem Sound.counter_unused (inv : Sound s) {m} (mem : m ∈ s.network) (sender : m.sender = n) :
    m.vc m.sender ≠ (s.node n).vc n + 1 := by
  subst sender
  have bound := inv.stamps m mem m.sender
  omega

variable [DecidableEq ι]

@[simp] theorem tick_self (vc) (k : ι) : tick vc k k = vc k + 1 := by
  simp [tick]

variable {k : ι} {msg : Message ι}

theorem tick_ne (vc) {j} (ne : j ≠ k) : tick vc k j = vc j := by
  simp [tick, ne]

theorem le_tick (vc) (j k : ι) : vc j ≤ tick vc k j := by
  by_cases same : j = k
  · subst same
    simp
  · rw [tick_ne vc same]

variable {vc : Clock ι}

/-- Delivering a ready message counts exactly that message. -/
theorem merge_of_ready (ready : isCausallyReady msg vc) : merge vc msg.vc = tick vc msg.sender := by
  obtain ⟨t, others⟩ := ready
  funext k
  by_cases same : k = msg.sender
  · subst same
    rw [tick_self] at t ⊢
    simp only [merge, t]
    rw [if_pos (Nat.lt_succ_self _)]
  · have covered := others k same
    rw [tick_ne vc same]
    simp only [merge]
    rw [if_neg (by omega)]

/-- A node's own sends do not disturb the readiness of other nodes' messages. -/
theorem isCausallyReady_tick (foreign : msg.sender ≠ n) (ready : isCausallyReady msg vc) :
    isCausallyReady msg (tick vc n) := by
  obtain ⟨t, others⟩ := ready
  refine ⟨?_, fun k ne => le_trans (others k ne) (le_tick vc k n)⟩
  rw [t, tick_self, tick_self, tick_ne vc foreign]

@[simp] theorem set_node (s : State ι) (n) (node : Node ι) : (s.set n node).node n = node := by
  simp [State.set]

theorem set_node_ne (s : State ι) (node) (ne : k ≠ n) : (s.set n node).node k = s.node k := by
  simp [State.set, ne]

/-- A deliverable message is not counted yet, and all it depends on is. -/
theorem Sound.fresh (inv : Sound s) (ready : isCausallyReady msg (s.node n).vc) :
    msg ∉ (s.node n).delivered := by
  intro mem
  have cnt := ((inv.delivered n msg).mp mem).2.2
  rw [ready.1, tick_self] at cnt
  omega

theorem Sound.dependency (inv : Sound s) (ready : isCausallyReady msg (s.node n).vc)
    (sent : x ∈ s.network) (foreign : x.sender ≠ n) (earlier : Earlier x msg) :
    x ∈ (s.node n).delivered := by
  rw [inv.delivered]
  refine ⟨sent, foreign, ?_⟩
  by_cases same : x.sender = msg.sender
  · have pre := earlier.2
    rw [ready.1, tick_self] at pre
    rw [same]
    omega
  · exact le_trans (earlier.1 _) (ready.2 _ same)

section

variable [ToString ι]

theorem sendMessage_vc (n k content) :
    ((sendMessage s n content).node k).vc =
      if k = n then tick (s.node n).vc n else (s.node k).vc := by
  by_cases self : k = n
  · subst self
    simp [sendMessage, State.set]
  · simp [sendMessage, State.set, self]

theorem sendMessage_delivered (n k content) :
    ((sendMessage s n content).node k).delivered = (s.node k).delivered := by
  by_cases self : k = n
  · subst self
    simp [sendMessage, State.set]
  · simp [sendMessage, State.set, self]

theorem sendMessage_le (n k j) (c : String) :
    (s.node k).vc j ≤ ((sendMessage s n c).node k).vc j := by
  rw [sendMessage_vc]
  split
  next self =>
    subst self
    exact le_tick _ _ _
  · exact le_refl _

theorem sendMessage_vc_ne (n k j content) (ne : j ≠ n) :
    ((sendMessage s n content).node k).vc j = (s.node k).vc j := by
  rw [sendMessage_vc]
  split
  next self =>
    subst self
    exact tick_ne _ ne
  · rfl

theorem Sound.sendMessage_delivered_iff (inv : Sound s) (n) (c : String) (k) (m : Message ι) :
    m ∈ ((sendMessage s n c).node k).delivered ↔ m ∈ (sendMessage s n c).network ∧ m.sender ≠ k ∧
        m.vc m.sender ≤ ((sendMessage s n c).node k).vc m.sender := by
  rw [sendMessage_delivered, inv.delivered]
  change _ ↔ m ∈ s.network ++ [_] ∧ _
  rw [mem_append, mem_singleton]
  constructor
  · rintro ⟨sent, foreign, cnt⟩
    exact ⟨.inl sent, foreign, le_trans cnt (sendMessage_le n k _ c)⟩
  · rintro ⟨old | rfl, foreign, cnt⟩
    · refine ⟨old, foreign, ?_⟩
      by_cases self : k = n
      · rw [← self] at cnt
        rwa [sendMessage_vc_ne k k m.sender c foreign] at cnt
      · rwa [sendMessage_vc, if_neg self] at cnt
    · -- Nobody but the sender counts the new message.
      have other : k ≠ n := fun eq => foreign eq.symm
      rw [sendMessage_vc, if_neg other] at cnt
      simp only [stamp, tick_self] at cnt
      have bound := inv.clocks k n
      omega

theorem sendMessage_sound (inv : Sound s) (n) (c : String) :
    Sound (sendMessage s n c) := by
  have raised := fun k j => sendMessage_le (s := s) n k j c
  have own : ((sendMessage s n c).node n).vc = tick (s.node n).vc n := by
    rw [sendMessage_vc, if_pos rfl]
  refine ⟨?_, ?_, ?_, ?_, ?_, ?_, ?_, ?_⟩
  · intro m mem k
    rcases mem_append.mp mem with old | new
    · exact le_trans (inv.stamps m old k) (raised k k)
    · rw [mem_singleton.mp new]
      by_cases self : k = n
      · subst self
        rw [own]
        exact le_refl _
      · rw [sendMessage_vc, if_neg self]
        exact (tick_ne _ self).trans_le (inv.clocks n k)
  · intro k j
    by_cases self : j = n
    · subst self
      by_cases same : k = j
      · subst same
        exact le_refl _
      · rw [sendMessage_vc, if_neg same]
        exact le_trans (inv.clocks k j) (raised j j)
    · rw [sendMessage_vc_ne n k j c self]
      exact le_trans (inv.clocks k j) (raised j j)
  · intro m mem m' member' sender count
    rcases mem_append.mp mem with old | new <;> rcases mem_append.mp member' with old' | new'
    · exact inv.unique m old m' old' sender count
    · rw [mem_singleton.mp new'] at sender count
      exact absurd (by simpa [stamp] using count) (inv.counter_unused old sender)
    · rw [mem_singleton.mp new] at sender count
      exact absurd (by simpa [stamp] using count.symm) (inv.counter_unused old' sender.symm)
    · rw [mem_singleton.mp new, mem_singleton.mp new']
  · exact inv.sendMessage_delivered_iff n c
  · intro k m known
    rcases knows_snoc_send.mp known with old | ⟨rfl, rfl⟩
    · exact fun j => le_trans (inv.known k m old j) (raised k j)
    · intro j
      rw [own]
      exact le_refl _
  · intro x y direct
    rcases direct_snoc direct with old | ⟨p, e, known⟩
    · exact inv.edges x y old
    · obtain ⟨rfl, rfl⟩ := Causality.Event.send.inj e
      have pre := inv.known n x known
      refine ⟨fun k => le_trans (pre k) (le_tick _ k n), ?_⟩
      simpa [stamp, Nat.lt_succ_iff] using pre n
  · intro k x mem foreign y earlier
    rw [sendMessage_delivered]
    rcases mem_append.mp mem with old | new
    · exact inv.ordered k x old foreign y earlier
    · -- The new message is in no delivered message's past.
      intro pre after split
      have there : y ∈ (s.node k).delivered := by simp [split]
      have bound := inv.stamps y ((inv.delivered k y).mp there).1 n
      have above := earlier.1 n
      rw [mem_singleton.mp new] at above
      simp only [stamp, tick_self] at above
      omega
  · intro k
    rw [sendMessage_delivered]
    exact inv.nodup k

end

theorem deliver_vc (n k msg phase) :
    ((deliver s n msg phase).node k).vc =
      if k = n then merge (s.node n).vc msg.vc else (s.node k).vc := by
  by_cases self : k = n
  · subst self
    simp [deliver, State.set]
  · simp [deliver, State.set, self]

theorem deliver_delivered (n k msg phase) :
    ((deliver s n msg phase).node k).delivered =
      if k = n then (s.node n).delivered ++ [msg] else (s.node k).delivered := by
  by_cases self : k = n
  · subst self
    simp [deliver, State.set]
  · simp [deliver, State.set, self]

theorem deliver_le (n k j) (msg : Message ι) (phase) :
    (s.node k).vc j ≤ ((deliver s n msg phase).node k).vc j := by
  rw [deliver_vc]
  split
  next self =>
    subst self
    exact le_merge_left _ _ _
  · exact le_refl _

theorem deliver_vc_of_ready {phase} (ready : isCausallyReady msg (s.node n).vc) :
    ((deliver s n msg phase).node n).vc = tick (s.node n).vc msg.sender := by
  rw [deliver_vc, if_pos rfl, merge_of_ready ready]

/-- Of the messages of one sender a node counts just one more after a delivery, and it is the
delivered one since no two messages of a sender have the same number. -/
theorem Sound.deliver_delivered_iff (inv : Sound s) (sent : msg ∈ s.network)
    (foreign : msg.sender ≠ n) (ready : isCausallyReady msg (s.node n).vc) (phase) (k : ι) (m) :
    m ∈ ((deliver s n msg phase).node k).delivered ↔ m ∈ s.network ∧ m.sender ≠ k ∧
        m.vc m.sender ≤ ((deliver s n msg phase).node k).vc m.sender := by
  have t : msg.vc msg.sender = (s.node n).vc msg.sender + 1 := by
    rw [ready.1, tick_self]
  rw [deliver_delivered]
  by_cases self : k = n
  · subst self
    rw [if_pos rfl, deliver_vc_of_ready ready, mem_append, mem_singleton, inv.delivered]
    constructor
    · rintro (⟨old, ne, cnt⟩ | rfl)
      · exact ⟨old, ne, le_trans cnt (le_tick _ _ _)⟩
      · exact ⟨sent, foreign, by rw [tick_self]; omega⟩
    · rintro ⟨old, ne, cnt⟩
      by_cases eq : m.sender = msg.sender
      · rw [eq, tick_self] at cnt
        by_cases last : m.vc m.sender = msg.vc msg.sender
        · exact .inr (inv.unique m old msg sent eq last)
        · rw [eq] at last
          exact .inl ⟨old, ne, by rw [eq]; omega⟩
      · rw [tick_ne _ eq] at cnt
        exact .inl ⟨old, ne, cnt⟩
  · rw [if_neg self, deliver_vc, if_neg self]
    exact inv.delivered k m

theorem deliver_sound (inv : Sound s) (n) (msg : Message ι) (phase) (sent : msg ∈ s.network)
    (foreign : msg.sender ≠ n) (ready : isCausallyReady msg (s.node n).vc) :
    Sound (deliver s n msg phase) := by
  have raised := fun k j => deliver_le (s := s) n k j msg phase
  refine ⟨?_, ?_, inv.unique, ?_, ?_, ?_, ?_, ?_⟩
  · exact fun m mem k => le_trans (inv.stamps m mem k) (raised k k)
  · intro k j
    refine le_trans ?_ (raised j j)
    by_cases self : k = n
    · subst self
      rw [deliver_vc_of_ready ready]
      by_cases same : j = msg.sender
      · subst same
        rw [← ready.1]
        exact inv.stamps msg sent _
      · rw [tick_ne _ same]
        exact inv.clocks k j
    · rw [deliver_vc, if_neg self]
      exact inv.clocks k j
  · exact inv.deliver_delivered_iff sent foreign ready phase
  · intro k m known
    rcases knows_snoc_deliver.mp known with old | ⟨rfl, rfl⟩
    · exact fun j => le_trans (inv.known k m old j) (raised k j)
    · intro j
      rw [deliver_vc, if_pos rfl]
      exact le_merge_right _ _ _
  · intro x y direct
    rcases direct_snoc direct with old | ⟨p, e, -⟩
    · exact inv.edges x y old
    · cases e
  · intro k x mem ne y pre
    have old := inv.ordered k x mem ne y pre
    rw [deliver_delivered]
    split
    next self =>
      subst self
      refine old.snoc ?_
      rintro rfl
      exact inv.dependency ready mem ne pre
    · exact old
  · intro k
    rw [deliver_delivered]
    split
    · have lone := inv.fresh ready
      refine List.Nodup.append (inv.nodup n) (nodup_singleton msg) ?_
      simpa using lone
    · exact inv.nodup k

end AsyncPractice.VectorClock
