import AsyncPractice.GoMap
import AsyncPractice.Runs

/- The critical sections of the RaftNode in challenge32_consensus_raft.go that change its term and
its vote: the opening of startElection, handleVoteRequest and handleAppendEntry. Each holds the
mutex of the node. -/
namespace AsyncPractice.RaftVoting

open Option List Runs

inductive NodeState
  | follower
  | candidate
  | leader

/-- The commands applyEntry knows: maps with a string under "key" and something under "value". -/
inductive Command (V : Type)
  | assign (key : String) (value : V)
  | other
  deriving DecidableEq

structure LogEntryRaft (V : Type) where
  term : UInt64
  index : Int64
  command : Command V
  deriving DecidableEq

structure AppendEntryRequest (V : Type) where
  term : UInt64
  leaderID : String
  entries : List (LogEntryRaft V)
  leaderCommit : Int64

structure VoteRequest where
  term : UInt64
  candidateID : String

structure VoteResponse where
  term : UInt64
  voteGranted : Bool

structure RaftNode (V : Type) where
  id : String
  state : NodeState
  currentTerm : UInt64
  votedFor : String
  log : List (LogEntryRaft V)
  commitIndex : Int64
  lastApplied : Int64
  votesReceived : GoMap String Bool
  leaderID : String
  stateMachine : GoMap String V
  isLeader : Bool

variable {V : Type}

def newRaftNode (id : String) : RaftNode V where
  id := id
  state := .follower
  currentTerm := 0
  votedFor := ""
  log := []
  commitIndex := -1
  lastApplied := -1
  votesReceived := ∅
  leaderID := ""
  stateMachine := ∅
  isLeader := false

/-- The section before the votes are asked for. -/
def startElection (n : RaftNode V) : RaftNode V :=
  { n with
    state := .candidate
    currentTerm := n.currentTerm + 1
    votedFor := n.id
    votesReceived := Finmap.singleton n.id true }

/-- A newer term makes the node a follower that has not voted. -/
def adopt (n : RaftNode V) (term : UInt64) : RaftNode V :=
  { n with currentTerm := term, state := .follower, votedFor := "" }

def handleVoteRequest (n : RaftNode V) (req : VoteRequest) : RaftNode V × VoteResponse :=
  let n := if req.term > n.currentTerm then adopt n req.term else n
  if req.term ≥ n.currentTerm ∧ (n.votedFor = "" ∨ n.votedFor = req.candidateID) then
    ({ n with votedFor := req.candidateID }, ⟨n.currentTerm, true⟩)
  else (n, ⟨n.currentTerm, false⟩)

def applyEntry (n : RaftNode V) (entry : LogEntryRaft V) : RaftNode V :=
  match entry.command with
  | .assign key value => { n with stateMachine := n.stateMachine.insert key value }
  | .other => n

/-- One turn of the loop of applyCommittedEntries. An index below zero panics. -/
def applyNext (n : RaftNode V) : Option (RaftNode V) :=
  let n := { n with lastApplied := n.lastApplied + 1 }
  if n.lastApplied.toInt < n.log.length then
    if n.lastApplied < 0 then none
    else n.log[n.lastApplied.toInt.toNat]?.map (applyEntry n)
  else some n

/-- The loop runs while `lastApplied` is below `commitIndex`, which each turn brings nearer by
one. -/
def applyTurns : Nat → RaftNode V → Option (RaftNode V)
  | 0, n => some n
  | turns + 1, n => (applyNext n).bind (applyTurns turns)

def applyCommittedEntries (n : RaftNode V) : Option (RaftNode V) :=
  applyTurns (n.commitIndex.toInt - n.lastApplied.toInt).toNat n

/-- What handleAppendEntry does once the term is settled. -/
def acceptEntries (n : RaftNode V) (req : AppendEntryRequest V) : Option (RaftNode V) :=
  let n := { n with leaderID := req.leaderID, log := n.log ++ req.entries }
  if req.leaderCommit > n.commitIndex then
    applyCommittedEntries { n with commitIndex := req.leaderCommit }
  else some n

def handleAppendEntry (n : RaftNode V) (req : AppendEntryRequest V) : Option (RaftNode V) :=
  if req.term < n.currentTerm then some n
  else if req.term > n.currentTerm then
    acceptEntries { adopt n req.term with isLeader := false } req
  else acceptEntries n req

/-- The node and the votes it has given, which only observe. -/
structure State (V : Type) where
  node : RaftNode V
  votes : List (UInt64 × String)

/-- A node that has voted already has done so in its term. -/
def init (node : RaftNode V) : State V :=
  ⟨node, if node.votedFor = "" then [] else [(node.currentTerm, node.votedFor)]⟩

inductive Event (V : Type)
  | startElection
  | voteRequest (req : VoteRequest)
  | appendEntry (req : AppendEntryRequest V)

def step (s : State V) : Event V → Option (State V)
  | .startElection =>
    let node := startElection s.node
    some ⟨node, s.votes ++ [(node.currentTerm, node.id)]⟩
  | .voteRequest req =>
    let handled := handleVoteRequest s.node req
    some ⟨handled.1, if handled.2.voteGranted then
      s.votes ++ [(handled.2.term, req.candidateID)] else s.votes⟩
  | .appendEntry req => (handleAppendEntry s.node req).map fun node => { s with node }

variable {n t : RaftNode V}

/-- What a section that only touches the log and the state machine leaves alone. -/
structure SameBallot (n next : RaftNode V) : Prop where
  id : next.id = n.id
  term : next.currentTerm = n.currentTerm
  vote : next.votedFor = n.votedFor

theorem SameBallot.trans {middle} (x : SameBallot n middle) (y : SameBallot middle t) :
    SameBallot n t :=
  ⟨y.id.trans x.id, y.term.trans x.term, y.vote.trans x.vote⟩

theorem applyEntry_ballot (n) (e : LogEntryRaft V) : SameBallot n (applyEntry n e) := by
  unfold applyEntry
  split <;> exact ⟨rfl, rfl, rfl⟩

theorem applyNext_ballot (applied : applyNext n = some t) : SameBallot n t := by
  unfold applyNext at applied
  dsimp only at applied
  split at applied
  · split at applied
    · cases applied
    · obtain ⟨e, -, rfl⟩ := map_eq_some_iff.mp applied
      have cnt : SameBallot n { n with lastApplied := n.lastApplied + 1 } := ⟨rfl, rfl, rfl⟩
      exact cnt.trans (applyEntry_ballot _ e)
  · cases applied
    exact ⟨rfl, rfl, rfl⟩

theorem applyTurns_ballot {turns} (applied : applyTurns turns n = some t) : SameBallot n t := by
  induction turns generalizing n with
  | zero =>
    cases applied
    exact ⟨rfl, rfl, rfl⟩
  | succ turns ih =>
    obtain ⟨mid, x, rest⟩ := bind_eq_some_iff.mp applied
    exact (applyNext_ballot x).trans (ih rest)

theorem acceptEntries_ballot {req} (acc : acceptEntries n req = some t) : SameBallot n t := by
  unfold acceptEntries at acc
  dsimp only at acc
  split at acc
  · have ballot := applyTurns_ballot acc
    exact ⟨ballot.id, ballot.term, ballot.vote⟩
  · cases acc
    exact ⟨rfl, rfl, rfl⟩

variable {s next : State V} {event : Event V}

inductive Moves (s : State V) : Event V → State V → Prop
  | elect {next : State V} (term : next.node.currentTerm = s.node.currentTerm + 1)
      (vote : next.node.votedFor = s.node.id) (id : next.node.id = s.node.id)
      (votes : next.votes = s.votes ++ [(next.node.currentTerm, next.node.votedFor)]) :
      Moves s .startElection next
  | grant {req : VoteRequest} {next : State V}
      (turn : s.node.currentTerm < req.term ∨ s.node.currentTerm = req.term ∧
        (s.node.votedFor = "" ∨ s.node.votedFor = req.candidateID))
      (term : next.node.currentTerm = req.term) (vote : next.node.votedFor = req.candidateID)
      (id : next.node.id = s.node.id)
      (votes : next.votes = s.votes ++ [(next.node.currentTerm, next.node.votedFor)]) :
      Moves s (.voteRequest req) next
  | follow {req : AppendEntryRequest V} {next : State V}
      (newer : s.node.currentTerm < next.node.currentTerm) (id : next.node.id = s.node.id)
      (votes : next.votes = s.votes) : Moves s (.appendEntry req) next
  | keep {event : Event V} {next : State V} (ballot : SameBallot s.node next.node)
      (votes : next.votes = s.votes) : Moves s event next

variable {req : VoteRequest}

theorem handleVoteRequest_newer (newer : n.currentTerm < req.term) :
    handleVoteRequest n req =
      ({ adopt n req.term with votedFor := req.candidateID }, ⟨req.term, true⟩) := by
  unfold handleVoteRequest
  rw [if_pos newer]
  exact if_pos ⟨UInt64.le_refl _, .inl rfl⟩

theorem handleVoteRequest_present (hit : ¬ n.currentTerm < req.term) :
    handleVoteRequest n req =
      if req.term ≥ n.currentTerm ∧ (n.votedFor = "" ∨ n.votedFor = req.candidateID) then
        ({ n with votedFor := req.candidateID }, ⟨n.currentTerm, true⟩)
      else (n, ⟨n.currentTerm, false⟩) := by
  unfold handleVoteRequest
  rw [if_neg hit]

theorem moves_of_voteRequest (took : step s (.voteRequest req) = some next) :
    Moves s (.voteRequest req) next := by
  simp only [step, some.injEq] at took
  by_cases newer : s.node.currentTerm < req.term
  · rw [handleVoteRequest_newer newer] at took
    subst took
    exact .grant (.inl newer) rfl rfl rfl rfl
  · rw [handleVoteRequest_present newer] at took
    split at took
    next granted =>
      have eq : s.node.currentTerm = req.term :=
        UInt64.le_antisymm granted.1 (UInt64.not_lt.mp newer)
      subst took
      exact .grant (.inr ⟨eq, granted.2⟩) eq rfl rfl rfl
    · subst took
      exact .keep ⟨rfl, rfl, rfl⟩ rfl

theorem moves_of_appendEntry {req} (took : step s (.appendEntry req) = some next) :
    Moves s (.appendEntry req) next := by
  obtain ⟨node, handled, rfl⟩ := map_eq_some_iff.mp took
  unfold handleAppendEntry at handled
  split at handled
  · cases handled
    exact .keep ⟨rfl, rfl, rfl⟩ rfl
  · split at handled
    next newer =>
      have ballot := acceptEntries_ballot handled
      refine .follow ?_ ballot.id rfl
      rw [ballot.term]
      exact newer
    · exact .keep (acceptEntries_ballot handled) rfl

theorem moves_of_step (took : step s event = some next) : Moves s event next := by
  cases event with
  | startElection =>
    cases took
    exact .elect rfl rfl rfl rfl
  | voteRequest req => exact moves_of_voteRequest took
  | appendEntry req => exact moves_of_appendEntry took

/-- The candidate of a vote request has a name. -/
def Event.Named : Event V → Prop
  | .voteRequest req => req.candidateID ≠ ""
  | _ => True

/-- An election is not started in the last term there is. -/
def TermLeft (s : State V) (event : Event V) : Prop :=
  event = .startElection → s.node.currentTerm.toNat + 1 < 2 ^ 64

theorem Moves.term_le (moves : Moves s event next) (left : TermLeft s event) :
    s.node.currentTerm ≤ next.node.currentTerm := by
  cases moves with
  | elect term =>
    have room := left rfl
    rw [term, UInt64.le_iff_toNat_le, UInt64.toNat_add, UInt64.toNat_one, Nat.mod_eq_of_lt room]
    omega
  | grant turn term =>
    rw [term]
    rcases turn with newer | ⟨eq, -⟩
    · exact UInt64.le_of_lt newer
    · exact UInt64.le_of_eq eq
  | follow newer => exact UInt64.le_of_lt newer
  | keep ballot => exact UInt64.le_of_eq ballot.term.symm

/-- A vote is of a term the node has come to, and while it stays in that term it is the vote it has
on record. -/
structure Backed (s : State V) : Prop where
  named : s.node.id ≠ ""
  reached : ∀ vote ∈ s.votes, vote.1 ≤ s.node.currentTerm
  current : ∀ vote ∈ s.votes, vote.1 = s.node.currentTerm →
    s.node.votedFor = vote.2 ∧ vote.2 ≠ ""
  once : ∀ term first second, (term, first) ∈ s.votes → (term, second) ∈ s.votes → first = second

theorem backed_init {node : RaftNode V} (named : node.id ≠ "") : Backed (init node) := by
  have only : ∀ vote ∈ (init node).votes,
      node.votedFor ≠ "" ∧ vote = (node.currentTerm, node.votedFor) := by
    intro vote mem
    unfold init at mem
    split at mem
    · cases mem
    next voted =>
      exact ⟨voted, mem_singleton.mp mem⟩
  refine ⟨named, ?_, ?_, ?_⟩
  · intro vote mem
    rw [(only vote mem).2]
    exact UInt64.le_refl _
  · intro vote mem _
    obtain ⟨voted, rfl⟩ := only vote mem
    exact ⟨rfl, voted⟩
  · intro term x y memberFirst memberSecond
    have one := (only _ memberFirst).2
    have other := (only _ memberSecond).2
    exact congrArg Prod.snd (one.trans other.symm)

theorem Backed.vote (backed : Backed s) (id : next.node.id = s.node.id)
    (later : s.node.currentTerm ≤ next.node.currentTerm) (someone : next.node.votedFor ≠ "")
    (alone : ∀ vote ∈ s.votes, vote.1 = next.node.currentTerm → vote.2 = next.node.votedFor)
    (votes : next.votes = s.votes ++ [(next.node.currentTerm, next.node.votedFor)]) :
    Backed next := by
  have cases : ∀ vote ∈ next.votes,
      vote ∈ s.votes ∨ vote = (next.node.currentTerm, next.node.votedFor) := by
    intro vote mem
    rw [votes] at mem
    simpa using mem
  have eq : ∀ vote ∈ next.votes, vote.1 = next.node.currentTerm → vote.2 = next.node.votedFor := by
    intro vote mem now
    rcases cases vote mem with old | rfl
    · exact alone vote old now
    · rfl
  refine ⟨id ▸ backed.named, ?_, ?_, ?_⟩
  · intro vote mem
    rcases cases vote mem with old | rfl
    · exact UInt64.le_trans (backed.reached vote old) later
    · exact UInt64.le_refl _
  · intro vote mem now
    have own := eq vote mem now
    exact ⟨own.symm, own ▸ someone⟩
  · intro term x y memberFirst memberSecond
    rcases cases _ memberFirst with oldFirst | newFirst
    · rcases cases _ memberSecond with oldSecond | newSecond
      · exact backed.once term x y oldFirst oldSecond
      · obtain ⟨rfl, rfl⟩ := Prod.mk.injEq .. ▸ newSecond
        exact alone _ oldFirst rfl
    · obtain ⟨rfl, rfl⟩ := Prod.mk.injEq .. ▸ newFirst
      exact (eq _ memberSecond rfl).symm

theorem Backed.moves (backed : Backed s) (left : TermLeft s event) (named : event.Named)
    (moves : Moves s event next) : Backed next := by
  have later := moves.term_le left
  cases moves with
  | elect term vote id votes =>
    refine backed.vote id later (vote ▸ backed.named) ?_ votes
    -- The new term is above all terms with votes.
    intro cast mem now
    have room := left rfl
    have came := backed.reached cast mem
    rw [now, term, UInt64.le_iff_toNat_le, UInt64.toNat_add, UInt64.toNat_one,
      Nat.mod_eq_of_lt room] at came
    omega
  | grant turn term vote id votes =>
    refine backed.vote id later (vote ▸ named) ?_ votes
    intro cast mem now
    rw [vote]
    rw [term] at now
    rcases turn with newer | ⟨eq, free⟩
    · have came := backed.reached cast mem
      rw [now] at came
      exact absurd newer (UInt64.not_lt.mpr came)
    · obtain ⟨rec, someone⟩ := backed.current cast mem (now.trans eq.symm)
      rcases free with nobody | already
      · exact absurd (rec.symm.trans nobody) someone
      · exact rec.symm.trans already
  | follow newer id votes =>
    refine ⟨id ▸ backed.named, ?_, ?_, ?_⟩
    · intro vote mem
      rw [votes] at mem
      exact UInt64.le_trans (backed.reached vote mem) later
    · intro vote mem now
      rw [votes] at mem
      have came := backed.reached vote mem
      rw [now] at came
      exact absurd newer (UInt64.not_lt.mpr came)
    · rw [votes]
      exact backed.once
  | keep ballot votes =>
    refine ⟨ballot.id ▸ backed.named, ?_, ?_, ?_⟩
    · rw [votes, ballot.term]
      exact backed.reached
    · rw [votes, ballot.term, ballot.vote]
      exact backed.current
    · rw [votes]
      exact backed.once

/-- As long as no election is started in the last term, the term of a node with a name never
decreases, and in each term the node votes for at most one candidate. -/
theorem votes_once_per_term {node : RaftNode V} {events : List (Event V)} {final : State V}
    (named : node.id ≠ "") (candidates : ∀ event ∈ events, event.Named)
    (run : exec step (init node) events = some final)
    (left : Along step TermLeft (init node) events) :
    Along step (fun s event => ∀ next, step s event = some next →
        s.node.currentTerm ≤ next.node.currentTerm) (init node) events ∧
      ∀ term first second, (term, first) ∈ final.votes → (term, second) ∈ final.votes →
        first = second := by
  constructor
  · intro before event after split s reached next stepped
    exact (moves_of_step stepped).term_le (left before event after split s reached)
  · have both := left.and (along_of_forall candidates)
    have backed : Backed final := exec_guarded Backed (backed_init named)
      (fun s event next held met stepped => held.moves met.1 met.2 (moves_of_step stepped)) run both
    exact backed.once

def orderly : List (Event Nat) :=
  [.voteRequest ⟨1, "b"⟩, .voteRequest ⟨1, "b"⟩, .voteRequest ⟨1, "c"⟩,
    .appendEntry ⟨1, "b", [⟨1, 0, .assign "x" 7⟩], 0⟩, .startElection, .voteRequest ⟨2, "c"⟩]

theorem orderly_votes_once :
    ∃ final, exec step (init (newRaftNode "a")) orderly = some final ∧
      final.votes = [(1, "b"), (1, "b"), (2, "a")] ∧
      ∀ term first second, (term, first) ∈ final.votes → (term, second) ∈ final.votes →
        first = second := by
  refine exists_exec (fun s => s.votes = [(1, "b"), (1, "b"), (2, "a")]) (by decide) ?_
  intro final run votes
  have named : ∀ event ∈ orderly, event.Named := by
    intro event member
    simp only [orderly, mem_cons, not_mem_nil, or_false] at member
    rcases member with rfl | rfl | rfl | rfl | rfl | rfl <;> simp [Event.Named]
  have left : Along step TermLeft (init (newRaftNode "a")) orderly := by
    refine along_of_check (fun s _ => decide (s.node.currentTerm.toNat + 1 < 2 ^ 64)) ?_ (by decide)
    intro s event passed _
    exact of_decide_eq_true passed
  exact ⟨votes, (votes_once_per_term (by decide) named run left).2⟩

/-- In the last term an election brings the node back to term 0, where it may have voted; and a node
without a name does not know that it has voted for itself. -/
theorem votes_twice_in_a_term :
    (∃ before after, exec step (init (newRaftNode "a" : RaftNode Nat))
        [.voteRequest ⟨0, "b"⟩, .voteRequest ⟨18446744073709551615, "c"⟩] = some before ∧
      step before .startElection = some after ∧
      after.node.currentTerm < before.node.currentTerm ∧
      (0, "b") ∈ after.votes ∧ (0, "a") ∈ after.votes) ∧
    ∃ final, exec step (init (newRaftNode "" : RaftNode Nat))
        [.startElection, .voteRequest ⟨1, "b"⟩] = some final ∧
      (1, "") ∈ final.votes ∧ (1, "b") ∈ final.votes :=
  ⟨⟨_, _, rfl, rfl, by decide, by decide, by decide⟩, ⟨_, rfl, by decide, by decide⟩⟩

end AsyncPractice.RaftVoting
