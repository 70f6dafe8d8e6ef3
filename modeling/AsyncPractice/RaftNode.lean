import AsyncPractice.Runs

/- ProposeBlock and replicateEntry of the RaftNode in solution20_blockchain_consensus.go, for calls
that run side by side. The goroutines that count a peer's success read and write the counter of
their call without a lock. -/
namespace AsyncPractice.RaftNode

section

open Option

inductive Role
  | follower
  | candidate
  | leader
  deriving DecidableEq

structure RaftLogEntry (B : Type) where
  term : Int
  index : Int
  data : B

structure Node (B : Type) where
  id : String
  state : Role
  currentTerm : Int
  log : List (RaftLogEntry B)
  commitIndex : Int
  peers : List String
  chain : List B

/-- Where a call of ProposeBlock stands. While it waits for a majority, `waiting` goroutines have
yet to read the counter and the others, but for those that are done, hold what they have read. -/
inductive Phase (B : Type)
  | idle
  | checked (block : B)
  | replicating (entry : RaftLogEntry B) (successCount : Int) (waiting : Nat) (held : List Int)
  | failed (err : String)
  | committed

structure State (C B : Type) where
  node : Node B
  phase : C → Phase B

/-- `giveUp` is the end of the context or the timeout. -/
inductive Event (C B : Type)
  | check (c : C) (block : B)
  | append (c : C)
  | load (c : C)
  | store (c : C) (i : Nat)
  | commit (c : C)
  | giveUp (c : C) (err : String)

variable {C B : Type} [DecidableEq C]

def newRaftNode (id : String) (peers : List String) : Node B :=
  ⟨id, .follower, 0, [], 0, peers, []⟩

/-- A node that has won the election of a term and has no log yet. -/
def newLeader (id : String) (peers : List String) (term : Int) : Node B :=
  { newRaftNode id peers with state := .leader, currentTerm := term }

def init (C : Type) (node : Node B) : State C B := ⟨node, fun _ => .idle⟩

def State.become (s : State C B) (c : C) (phase : Phase B) : State C B :=
  { s with phase := Function.update s.phase c phase }

def Node.entry (node : Node B) (block : B) : RaftLogEntry B :=
  ⟨node.currentTerm, node.log.length, block⟩

def Node.commit (node : Node B) (entry : RaftLogEntry B) : Node B :=
  { node with commitIndex := entry.index, chain := node.chain ++ [entry.data] }

def step (s : State C B) : Event C B → Option (State C B)
  | .check c block =>
    match s.phase c with
    | .idle =>
      some (s.become c (if s.node.state = .leader then .checked block
        else .failed "not leader"))
    | _ => none
  | .append c =>
    match s.phase c with
    | .checked block =>
      let entry := s.node.entry block
      let waiting := (s.node.peers.filter (· ≠ s.node.id)).length
      some ({ s with node := { s.node with log := s.node.log ++ [entry] } }.become c
        (.replicating entry 1 waiting []))
    | _ => none
  | .load c =>
    match s.phase c with
    | .replicating entry successCount (waiting + 1) held =>
      some (s.become c (.replicating entry successCount waiting (successCount :: held)))
    | _ => none
  | .store c i =>
    match s.phase c with
    | .replicating entry _ waiting held =>
      held[i]?.map fun value =>
        s.become c (.replicating entry (value + 1) waiting (held.eraseIdx i))
    | _ => none
  | .commit c =>
    match s.phase c with
    | .replicating entry successCount _ _ =>
      if s.node.peers.length / 2 < successCount then
        some ({ s with node := s.node.commit entry }.become c .committed)
      else none
    | _ => none
  | .giveUp c err =>
    match s.phase c with
    | .replicating _ _ _ _ => some (s.become c (.failed err))
    | _ => none

def State.committing (s : State C B) (c : C) : Option (RaftLogEntry B) :=
  match s.phase c with
  | .replicating entry successCount _ _ =>
    if s.node.peers.length / 2 < successCount then some entry else none
  | _ => none

inductive Moves (s : State C B) : Event C B → State C B → Prop
  | append {c : C} {block : B} {next : State C B} (checked : s.phase c = .checked block)
      (node : next.node = { s.node with log := s.node.log ++ [s.node.entry block] }) :
      Moves s (.append c) next
  | commit {c : C} {entry : RaftLogEntry B} {next : State C B}
      (committing : s.committing c = some entry) (node : next.node = s.node.commit entry) :
      Moves s (.commit c) next
  | other {event : Event C B} {next : State C B} (same : next.node = s.node) : Moves s event next

theorem moves_of_step {s t : State C B} {e : Event C B} (took : step s e = some t) :
    Moves s e t := by
  cases e with
  | check c b | load c | giveUp c err =>
    simp only [step] at took
    split at took
    · exact .other (by rw [← some.inj took]; rfl)
    · cases took
  | append c =>
    simp only [step] at took
    split at took
    next b checked =>
      exact .append checked (by rw [← some.inj took]; rfl)
    · cases took
  | store c i =>
    simp only [step] at took
    split at took
    · obtain ⟨v, -, rfl⟩ := map_eq_some_iff.mp took
      exact .other rfl
    · cases took
  | commit c =>
    simp only [step] at took
    split at took
    next entry successCount waiting held replicating =>
      obtain ⟨majority, moved⟩ := ite_none_right_eq_some.mp took
      refine .commit ?_ (by rw [← some.inj moved]; rfl)
      rw [State.committing, replicating]
      exact if_pos majority
    · cases took

theorem step_commit {s : State C B} {c : C} {e : RaftLogEntry B} (busy : s.committing c = some e) :
    step s (.commit c) = some ({ s with node := s.node.commit e }.become c .committed) := by
  unfold State.committing at busy
  simp only [step]
  split at busy
  · obtain ⟨majority, eq⟩ := ite_none_right_eq_some.mp busy
    rw [if_pos majority, some.inj eq]
  · cases busy

end

open List Runs

variable {C B : Type} [DecidableEq C] {s next : State C B} {event : Event C B}

/-- The chain is made of the blocks of the first entries of the log. -/
def Node.AppliesInOrder (node : Node B) : Prop := node.chain <+: node.log.map (·.data)

/-- The step does not lower the commit index. -/
def KeepsCommitIndex (s : State C B) (event : Event C B) : Prop :=
  ∀ next, step s event = some next → s.node.commitIndex ≤ next.node.commitIndex

/-- A call that commits now has an index the commit index has not passed, and the block of the
first entry that is not on the chain yet. -/
def InTurn (s : State C B) : Event C B → Prop
  | .commit c => ∀ entry, s.committing c = some entry →
      s.node.commitIndex ≤ entry.index ∧
        (s.node.log.map (·.data))[s.node.chain.length]? = some entry.data
  | _ => True

theorem concat_prefix_iff {α : Type} {front whole : List α} {last : α} :
    front ++ [last] <+: whole ↔ front <+: whole ∧ whole[front.length]? = some last := by
  constructor
  · rintro ⟨rest, rfl⟩
    refine ⟨⟨last :: rest, by simp⟩, by simp⟩
  · rintro ⟨⟨rest, rfl⟩, present⟩
    rw [getElem?_append_right (Nat.le_refl _), Nat.sub_self] at present
    cases rest with
    | nil => cases present
    | cons x rest =>
      cases present
      exact ⟨rest, by simp⟩

variable {n : Node B}

theorem appliesInOrder_append (ord : n.AppliesInOrder) (e : RaftLogEntry B) :
    Node.AppliesInOrder { n with log := n.log ++ [e] } := by
  unfold Node.AppliesInOrder
  rw [map_append]
  exact ord.trans (prefix_append _ _)

theorem appliesInOrder_commit_iff {e : RaftLogEntry B} :
    (n.commit e).AppliesInOrder ↔ n.AppliesInOrder ∧
      (n.log.map (·.data))[n.chain.length]? = some e.data := concat_prefix_iff

theorem appliesInOrder_step (ord : s.node.AppliesInOrder) (turn : InTurn s event)
    (took : step s event = some next) : next.node.AppliesInOrder := by
  cases moves_of_step took with
  | append checked n =>
    rw [n]
    exact appliesInOrder_append ord _
  | commit busy n =>
    rw [n]
    exact appliesInOrder_commit_iff.mpr ⟨ord, (turn _ busy).2⟩
  | other eq =>
    rw [eq]
    exact ord

theorem keepsCommitIndex_iff : KeepsCommitIndex s event ↔
    ∀ c, event = .commit c → ∀ e, s.committing c = some e → s.node.commitIndex ≤ e.index := by
  constructor
  · rintro keeps c rfl e busy
    exact keeps _ (step_commit busy)
  · intro later next took
    cases moves_of_step took with
    | append checked n => exact n ▸ Int.le_refl _
    | commit busy n =>
      rw [n]
      exact later _ rfl _ busy
    | other eq => exact eq ▸ Int.le_refl _

def overtaking : List (Event Bool Nat) :=
  [.check false 10, .append false, .check true 20, .append true, .load true, .store true 0,
    .commit true]

end AsyncPractice.RaftNode
