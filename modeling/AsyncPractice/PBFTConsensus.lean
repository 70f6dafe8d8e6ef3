import AsyncPractice.GoMap
import AsyncPractice.NumberedName
import AsyncPractice.Quorum

/- PBFTConsensus of solution20_blockchain_consensus.go. Each HandleMessage call and the critical
section of each ProposeBlock call is one step under the node's mutex. Blocks are pointers that the
node only passes on. -/
namespace AsyncPractice.PBFTConsensus

section

/-- A message with any other text as its Type is only logged, like a REQUEST. -/
inductive MessageType
  | request
  | preprepare
  | prepare
  | commit
  deriving DecidableEq

/-- Nothing sets or reads the Signature. -/
structure ConsensusMessage (B : Type) where
  type : MessageType
  view : Int
  sequence : Int
  block : B
  nodeID : String

structure PBFTNode (B : Type) where
  nodeID : String
  nodes : List String
  view : Int
  sequence : Int
  prepared : GoMap String Nat
  committed : GoMap String Nat
  messageLog : List (ConsensusMessage B)
  isPrimary : Bool
  chain : List B
  faultNodes : Nat

variable {B : Type}

/-- `none` is the panic on a cluster without nodes. -/
def newPBFTConsensus (nodeID : String) (nodes : List String) : Option (PBFTNode B) :=
  nodes.head?.map fun first =>
    { nodeID, nodes
      view := 0
      sequence := 0
      prepared := ∅
      committed := ∅
      messageLog := []
      isPrimary := first = nodeID
      chain := []
      faultNodes := (nodes.length - 1) / 3 }

def PBFTNode.quorum (p : PBFTNode B) : Nat := 2 * p.faultNodes + 1

/-- Sprintf("%d-%d", view, sequence). -/
def slotKey (view sequence : Int) : String := toString view ++ "-" ++ toString sequence

/-- The messages handed to the goroutines, one for each other node. -/
def broadcast (p : PBFTNode B) (msg : ConsensusMessage B) : List (String × ConsensusMessage B) :=
  (p.nodes.filter (· ≠ p.nodeID)).map fun node => (node, msg)

def verifyMessage (p : PBFTNode B) (msg : ConsensusMessage B) : Bool :=
  msg.view = p.view ∧ 0 < msg.sequence

def increment (counters : GoMap String Nat) (key : String) : GoMap String Nat :=
  counters.insert key ((counters.lookup key).getD 0 + 1)

def handlePrePrepare (p : PBFTNode B) (msg : ConsensusMessage B) :
    PBFTNode B × List (String × ConsensusMessage B) :=
  (p, broadcast p { msg with type := .prepare, nodeID := p.nodeID })

def handlePrepare (p : PBFTNode B) (msg : ConsensusMessage B) :
    PBFTNode B × List (String × ConsensusMessage B) :=
  let key := slotKey msg.view msg.sequence
  let p := { p with prepared := increment p.prepared key }
  if p.quorum ≤ (p.prepared.lookup key).getD 0 then
    (p, broadcast p { msg with type := .commit, nodeID := p.nodeID })
  else (p, [])

def handleCommit (p : PBFTNode B) (msg : ConsensusMessage B) : PBFTNode B :=
  let key := slotKey msg.view msg.sequence
  let p := { p with committed := increment p.committed key }
  if p.quorum ≤ (p.committed.lookup key).getD 0 then { p with chain := p.chain ++ [msg.block] }
  else p

def handleMessage (p : PBFTNode B) (msg : ConsensusMessage B) :
    PBFTNode B × List (String × ConsensusMessage B) :=
  if verifyMessage p msg then
    let p := { p with messageLog := p.messageLog ++ [msg] }
    match msg.type with
    | .request => (p, [])
    | .preprepare => handlePrePrepare p msg
    | .prepare => handlePrepare p msg
    | .commit => (handleCommit p msg, [])
  else (p, [])

/-- Up to the wait for consensus. -/
def proposeBlock (p : PBFTNode B) (block : B) :
    PBFTNode B × Except String (List (String × ConsensusMessage B)) :=
  if p.isPrimary then
    let p := { p with sequence := p.sequence + 1 }
    let msg : ConsensusMessage B := ⟨.preprepare, p.view, p.sequence, block, p.nodeID⟩
    let p := { p with messageLog := p.messageLog ++ [msg] }
    (p, .ok (broadcast p msg))
  else (p, .error "not primary node")

inductive Call (B : Type)
  | handleMessage (msg : ConsensusMessage B)
  | proposeBlock (block : B)

def step (p : PBFTNode B) : Call B → PBFTNode B
  | .handleMessage msg => (handleMessage p msg).1
  | .proposeBlock block => (proposeBlock p block).1

def run (p : PBFTNode B) (calls : List (Call B)) : PBFTNode B := calls.foldl step p

def received (calls : List (Call B)) : List (ConsensusMessage B) :=
  calls.filterMap fun
    | .handleMessage msg => some msg
    | .proposeBlock _ => none

end

/- The counter of a slot against the COMMIT messages received for it. -/
section

open List

variable {B : Type}

theorem slotKey_injective {view seq sequence'} (pos : 0 < seq) (positive' : 0 < sequence')
    (eq : slotKey view seq = slotKey view sequence') : seq = sequence' := by
  obtain ⟨n, rfl⟩ := Int.eq_ofNat_of_zero_le pos.le
  obtain ⟨n', rfl⟩ := Int.eq_ofNat_of_zero_le positive'.le
  exact congrArg Int.ofNat (NumberedName.numbered_injective '-' rfl eq).2

def commitsFor (view sequence : Int) (messages : List (ConsensusMessage B)) :
    List (ConsensusMessage B) :=
  messages.filter fun msg => msg.type = .commit ∧ msg.view = view ∧ msg.sequence = sequence

def appendedBy (p : PBFTNode B) (call : Call B) : List B :=
  (step p call).chain.drop p.chain.length

def Call.isFor (view sequence : Int) : Call B → Bool
  | .handleMessage msg => msg.view = view ∧ msg.sequence = sequence
  | .proposeBlock _ => false

def appendedFor (view sequence : Int) (p : PBFTNode B) : List (Call B) → List B
  | [] => []
  | call :: rest =>
    (if call.isFor view sequence then appendedBy p call else []) ++
      appendedFor view sequence (step p call) rest

inductive Moves (p next : PBFTNode B) : Call B → Prop
  | commit {msg : ConsensusMessage B} (type : msg.type = .commit) (view : msg.view = p.view)
      (positive : 0 < msg.sequence)
      (committed : next.committed = increment p.committed (slotKey msg.view msg.sequence))
      (chain : next.chain = p.chain ++
        if p.quorum ≤ (p.committed.lookup (slotKey msg.view msg.sequence)).getD 0 + 1
        then [msg.block] else []) : Moves p next (.handleMessage msg)
  | other {call : Call B}
      (unverified : ∀ msg, call = .handleMessage msg → msg.type = .commit →
        ¬ (msg.view = p.view ∧ 0 < msg.sequence))
      (committed : next.committed = p.committed) (chain : next.chain = p.chain) :
      Moves p next call

theorem lookup_increment (counters k other) :
    ((increment counters k).lookup other).getD 0 =
      (counters.lookup other).getD 0 + if other = k then 1 else 0 := by
  rw [increment, GoMap.lookup_insert_ite]
  split
  next eq =>
    rw [eq, Option.getD_some]
  · rfl

variable {m : ConsensusMessage B}

theorem handleCommit_moves (p) (type : m.type = .commit) (view : m.view = p.view)
    (pos : 0 < m.sequence) : Moves p (handleCommit p m) (.handleMessage m) := by
  have cnt := lookup_increment p.committed (slotKey m.view m.sequence) (slotKey m.view m.sequence)
  rw [if_pos rfl] at cnt
  unfold handleCommit
  dsimp only
  rw [cnt]
  split
  next enough =>
    exact .commit type view pos rfl (congrArg (p.chain ++ ·) (if_pos enough).symm)
  next few =>
    refine .commit type view pos rfl ?_
    rw [if_neg (show ¬ p.quorum ≤ _ from few), append_nil]

variable {t p : PBFTNode B}

theorem Moves.of_logged {c messageLog} (moves : Moves { p with messageLog } t c) : Moves p t c := by
  cases moves with
  | commit type view pos committed chain => exact .commit type view pos committed chain
  | other unverified committed chain => exact .other unverified committed chain

theorem Moves.of_not_commit (other : m.type ≠ .commit) (committed : t.committed = p.committed)
    (chain : t.chain = p.chain) : Moves p t (.handleMessage m) := by
  refine .other ?_ committed chain
  rintro _ ⟨⟩ commit
  exact absurd commit other

theorem step_moves (p) (c : Call B) : Moves p (step p c) c := by
  cases c with
  | proposeBlock b =>
    refine .other (fun m eq => by cases eq) ?_ ?_ <;>
    · dsimp only [step]
      unfold proposeBlock
      split <;> rfl
  | handleMessage m =>
    dsimp only [step]
    unfold handleMessage
    split
    next verified =>
      obtain ⟨view, pos⟩ := of_decide_eq_true verified
      apply Moves.of_logged
      cases type : m.type with
      | commit => exact handleCommit_moves _ type view pos
      | request | preprepare => exact .of_not_commit (by rw [type]; decide) rfl rfl
      | prepare =>
        refine .of_not_commit (by rw [type]; decide) ?_ ?_ <;>
        · unfold handlePrepare
          dsimp only
          split <;> rfl
    next dropped =>
      refine .other ?_ rfl rfl
      rintro _ ⟨⟩ - acc
      exact dropped (decide_eq_true acc)

theorem step_fixed (p) (c : Call B) :
    (step p c).view = p.view ∧ (step p c).faultNodes = p.faultNodes := by
  cases c with
  | proposeBlock b =>
    dsimp only [step]
    unfold proposeBlock
    split <;> exact ⟨rfl, rfl⟩
  | handleMessage m =>
    dsimp only [step]
    unfold handleMessage
    split
    · cases m.type with
      | request => exact ⟨rfl, rfl⟩
      | preprepare => exact ⟨rfl, rfl⟩
      | prepare =>
        unfold handlePrepare
        dsimp only
        split <;> exact ⟨rfl, rfl⟩
      | commit =>
        unfold handleCommit
        dsimp only
        split <;> exact ⟨rfl, rfl⟩
    · exact ⟨rfl, rfl⟩

@[simp] theorem run_snoc (p) (cs : List (Call B)) (c) :
    run p (cs ++ [c]) = step (run p cs) c := List.foldl_concat ..

@[simp] theorem received_snoc_handleMessage (cs) (m : ConsensusMessage B) :
    received (cs ++ [.handleMessage m]) = received cs ++ [m] := by
  simp [received]

theorem run_fixed (p) (cs : List (Call B)) :
    (run p cs).view = p.view ∧ (run p cs).faultNodes = p.faultNodes := by
  induction cs using reverseRecOn with
  | nil => exact ⟨rfl, rfl⟩
  | append_singleton cs c ih =>
    obtain ⟨view, faultNodes⟩ := step_fixed (run p cs) c
    rw [run_snoc]
    exact ⟨view.trans ih.1, faultNodes.trans ih.2⟩

theorem appendedFor_snoc (view seq) (p : PBFTNode B) (cs) (c : Call B) :
    appendedFor view seq p (cs ++ [c]) = appendedFor view seq p cs ++
      if c.isFor view seq then appendedBy (run p cs) c else [] := by
  induction cs generalizing p with
  | nil => simp [appendedFor, run]
  | cons x cs ih =>
    rw [cons_append, appendedFor, appendedFor, ih, append_assoc]
    rfl

variable {seq view : Int} {ms : List (ConsensusMessage B)}

theorem commitsFor_snoc_other {cs : List (Call B)} {c : Call B}
    (other : ∀ m, c = .handleMessage m → m.type = .commit → ¬ (m.view = view ∧ m.sequence = seq)) :
    commitsFor view seq (received (cs ++ [c])) = commitsFor view seq (received cs) := by
  cases c with
  | proposeBlock b => simp [received]
  | handleMessage m =>
    rw [received_snoc_handleMessage, commitsFor, filter_append, filter_cons_of_neg,
      filter_nil, append_nil]
    · rfl
    · intro cnt
      obtain ⟨type, slot⟩ := of_decide_eq_true cnt
      exact other m rfl type slot

theorem commitsFor_snoc_commit (type : m.type = .commit) (view seq) :
    commitsFor view seq (ms ++ [m]) = commitsFor view seq ms ++
      if m.view = view ∧ m.sequence = seq then [m] else [] := by
  rw [commitsFor, filter_append, filter_singleton]
  congr 1
  simp [type]

theorem commitsFor_snoc_own (type : m.type = .commit) (slot : m.view = view) :
    commitsFor view m.sequence (ms ++ [m]) = commitsFor view m.sequence ms ++ [m] := by
  rw [commitsFor_snoc_commit type, if_pos ⟨slot, rfl⟩]

/-- The counter of a slot is the number of COMMIT messages received for it. -/
theorem counter_run (p) (fresh : p.committed = ∅) (cs : List (Call B)) (pos : 0 < seq) :
    ((run p cs).committed.lookup (slotKey p.view seq)).getD 0 =
      (commitsFor p.view seq (received cs)).length := by
  induction cs using reverseRecOn with
  | nil => simp [run, fresh, received, commitsFor]
  | append_singleton cs c ih =>
    have view := (run_fixed p cs).1
    rw [run_snoc]
    generalize next : step (run p cs) c = after
    have moves := next ▸ step_moves (run p cs) c
    cases moves with
    | commit type eq above committed chain =>
      rename_i m
      rw [received_snoc_handleMessage, commitsFor_snoc_commit type, committed,
        lookup_increment, ih, length_append, eq, view]
      congr 1
      by_cases this : m.sequence = seq
      · rw [if_pos (by rw [this]), if_pos ⟨rfl, this⟩]
        rfl
      · rw [if_neg, if_neg]
        · rfl
        · exact fun both => this both.2
        · exact fun keys => this (slotKey_injective pos above keys).symm
    | other unverified committed chain =>
      rw [view] at unverified
      rw [committed, ih, commitsFor_snoc_other]
      intro m eq type slot
      exact unverified m eq type ⟨slot.1, slot.2 ▸ pos⟩

end

open List

variable {B : Type} {nodeID : String} {nodes : List String} {p : PBFTNode B}

structure Fresh (nodes : List String) (p : PBFTNode B) : Prop where
  positive : 0 < nodes.length
  view : p.view = 0
  committed : p.committed = ∅
  faultNodes : p.faultNodes = (nodes.length - 1) / 3

theorem newPBFTConsensus_fresh (new : newPBFTConsensus nodeID nodes = some p) : Fresh nodes p := by
  obtain ⟨x, head, rfl⟩ := Option.map_eq_some_iff.mp new
  refine ⟨?_, rfl, rfl, rfl⟩
  cases nodes with
  | nil => cases head
  | cons n rest => exact Nat.succ_pos _

/-- A call appends the block of a COMMIT it accepts when enough of them came before. -/
theorem appendedBy_commit (fresh : Fresh nodes p) (pre) {m} (type : m.type = .commit)
    (view : m.view = 0) (pos : 0 < m.sequence) :
    appendedBy (run p pre) (.handleMessage m) =
      if 2 * p.faultNodes ≤ (commitsFor 0 m.sequence (received pre)).length
      then [m.block] else [] := by
  obtain ⟨eq, faulty⟩ := run_fixed p pre
  have counter := counter_run p fresh.committed pre pos
  rw [fresh.view] at eq counter
  unfold appendedBy
  generalize next : step (run p pre) (.handleMessage m) = after
  have moves := next ▸ step_moves (run p pre) (.handleMessage m)
  cases moves with
  | commit _ _ _ _ chain =>
    rw [chain, drop_left, PBFTNode.quorum, faulty, view, counter]
    simp only [Nat.add_le_add_iff_right]
  | other unverified _ _ =>
    exact absurd ⟨view.trans eq.symm, pos⟩ (unverified m rfl type)

theorem appendedBy_other (p : PBFTNode B) {c}
    (unverified : ∀ msg, c = .handleMessage msg → msg.type = .commit →
      ¬ (msg.view = p.view ∧ 0 < msg.sequence)) : appendedBy p c = [] := by
  unfold appendedBy
  generalize next : step p c = after
  have moves := next ▸ step_moves p c
  cases moves with
  | commit type view pos _ _ => exact absurd ⟨view, pos⟩ (unverified _ rfl type)
  | other _ _ chain => rw [chain, drop_length]

variable {seq : Int}

/-- From the quorum on, every COMMIT for a slot appends its block. -/
theorem appendedFor_run (fresh : Fresh nodes p) (cs) (pos : 0 < seq) :
    appendedFor 0 seq p cs =
      ((commitsFor 0 seq (received cs)).drop (2 * p.faultNodes)).map (·.block) := by
  induction cs using reverseRecOn with
  | nil => simp [appendedFor, received, commitsFor]
  | append_singleton cs c ih =>
    rw [appendedFor_snoc, ih]
    by_cases counted : ∃ m, c = .handleMessage m ∧ m.type = .commit ∧ m.view = 0 ∧ m.sequence = seq
    · obtain ⟨m, rfl, type, slot, rfl⟩ := counted
      have matching : Call.isFor 0 m.sequence (.handleMessage m) = true :=
        decide_eq_true ⟨slot, rfl⟩
      rw [if_pos matching, appendedBy_commit fresh cs type slot pos,
        received_snoc_handleMessage, commitsFor_snoc_own type slot, drop_append,
        map_append]
      congr 1
      split
      next enough =>
        rw [Nat.sub_eq_zero_of_le enough]
        rfl
      · rw [drop_eq_nil_of_le (by rw [length_singleton]; omega)]
        rfl
    · have others : ∀ m, c = .handleMessage m → m.type = .commit →
          ¬ (m.view = 0 ∧ m.sequence = seq) :=
        fun m eq type slot => counted ⟨m, eq, type, slot⟩
      rw [commitsFor_snoc_other others]
      refine (congrArg _ ?_).trans (append_nil _)
      split
      next matching =>
        apply appendedBy_other
        rintro m rfl type -
        exact others m rfl type (of_decide_eq_true matching)
      · rfl

/-- Messages of another view, or without a positive sequence number, append nothing. -/
theorem appendedFor_rejected (fresh : Fresh nodes p) (cs) {view}
    (rejected : ¬ (view = 0 ∧ 0 < seq)) : appendedFor view seq p cs = [] := by
  induction cs using reverseRecOn with
  | nil => rfl
  | append_singleton cs c ih =>
    rw [appendedFor_snoc, ih, nil_append]
    split
    next matching =>
      apply appendedBy_other
      rintro m rfl - ⟨eq, pos⟩
      obtain ⟨rfl, rfl⟩ := of_decide_eq_true matching
      exact rejected ⟨eq.trans ((run_fixed p cs).1.trans fresh.view), pos⟩
    · rfl

/-- A slot appends its block at most once exactly when no more COMMIT messages than the quorum
needs are received for it. -/
theorem slot_appended_once_iff (new : newPBFTConsensus nodeID nodes = some p)
    (calls : List (Call B)) :
    (∀ view sequence, (appendedFor view sequence p calls).length ≤ 1) ↔
      ∀ sequence, 0 < sequence →
        (commitsFor 0 sequence (received calls)).length ≤ 2 * ((nodes.length - 1) / 3) + 1 := by
  have fresh := newPBFTConsensus_fresh new
  have length : ∀ sequence, 0 < sequence → (appendedFor 0 sequence p calls).length =
      (commitsFor 0 sequence (received calls)).length - 2 * ((nodes.length - 1) / 3) := by
    intro sequence positive
    rw [appendedFor_run fresh calls positive, length_map, length_drop, fresh.faultNodes]
  constructor
  · intro once sequence positive
    have short := once 0 sequence
    rw [length sequence positive] at short
    omega
  · intro few view sequence
    by_cases accepted : view = 0 ∧ 0 < sequence
    · obtain ⟨rfl, positive⟩ := accepted
      have short := few sequence positive
      rw [length sequence positive]
      omega
    · rw [appendedFor_rejected fresh calls accepted]
      exact Nat.zero_le 1

def commitsFrom (block : B) (senders : List String) : List (Call B) :=
  senders.map fun sender => .handleMessage ⟨.commit, 0, 1, block, sender⟩

theorem slot_appended_once_iff_quorum :
    ∃ p, newPBFTConsensus "n1" ["n1", "n2", "n3", "n4"] = some p ∧
      ∀ view sequence,
        (appendedFor view sequence p (commitsFrom true ["n2", "n3", "n4"])).length ≤ 1 := by
  obtain ⟨p, new⟩ : ∃ p : PBFTNode Bool,
      newPBFTConsensus "n1" ["n1", "n2", "n3", "n4"] = some p := ⟨_, rfl⟩
  refine ⟨p, new, (slot_appended_once_iff new _).mpr ?_⟩
  intro sequence _
  exact (length_filter_le _ _).trans (by decide)

/-- The four nodes commit one block: it is on the chain twice. -/
theorem fourth_commit_appends_again :
    ∃ p, newPBFTConsensus "n1" ["n1", "n2", "n3", "n4"] = some p ∧
      appendedFor 0 1 p (commitsFrom true ["n1", "n2", "n3", "n4"]) = [true, true] ∧
      (run p (commitsFrom true ["n1", "n2", "n3", "n4"])).chain = [true, true] :=
  ⟨_, rfl, by decide, by decide⟩

section

variable [DecidableEq B]

def votersFor (view sequence : Int) (block : B) (messages : List (ConsensusMessage B)) :
    Finset String :=
  (((commitsFor view sequence messages).filter (·.block = block)).map (·.nodeID)).toFinset

/-- COMMIT messages naming the block for one slot came from a quorum of different nodes. -/
def Certified (quorum : Nat) (messages : List (ConsensusMessage B)) (block : B) : Prop :=
  ∃ view sequence, quorum ≤ (votersFor view sequence block messages).card

variable {ms : List (ConsensusMessage B)} {block : B}

/-- When the nodes of a slot commit once each and to one block, its COMMIT messages are so many
certificates. -/
theorem card_votersFor {view seq} (once : ((commitsFor view seq ms).map (·.nodeID)).Nodup)
    (one : ∀ m ∈ commitsFor view seq ms, m.block = block) :
    (votersFor view seq block ms).card = (commitsFor view seq ms).length := by
  unfold votersFor
  rw [filter_eq_self.mpr fun m mem => decide_eq_true (one m mem),
    toFinset_card_of_nodup once, length_map]

/-- With honest senders every appended block is certified. -/
theorem honest_appends_certified (new : newPBFTConsensus nodeID nodes = some p) {cs : List (Call B)}
    (once : ∀ seq, ((commitsFor 0 seq (received cs)).map (·.nodeID)).Nodup)
    (one : ∀ seq, ∀ first ∈ commitsFor 0 seq (received cs),
      ∀ second ∈ commitsFor 0 seq (received cs), first.block = second.block)
    {pre after : List (Call B)} {m : ConsensusMessage B}
    (split : cs = pre ++ .handleMessage m :: after) (type : m.type = .commit) (view : m.view = 0)
    (enough : 2 * ((nodes.length - 1) / 3) ≤ (commitsFor 0 m.sequence (received pre)).length) :
    Certified p.quorum (received pre ++ [m]) m.block := by
  have fresh := newPBFTConsensus_fresh new
  have whole : commitsFor 0 m.sequence (received cs) =
      commitsFor 0 m.sequence (received pre ++ [m]) ++
        commitsFor 0 m.sequence (received after) := by
    have ms : received cs = (received pre ++ [m]) ++ received after := by
      simp [split, received]
    rw [ms, commitsFor, filter_append]
    rfl
  have last : commitsFor 0 m.sequence (received pre ++ [m]) =
      commitsFor 0 m.sequence (received pre) ++ [m] := commitsFor_snoc_own type view
  have front : ∀ other ∈ commitsFor 0 m.sequence (received pre ++ [m]),
      other ∈ commitsFor 0 m.sequence (received cs) :=
    fun other mem => whole ▸ mem_append_left _ mem
  refine ⟨0, m.sequence, ?_⟩
  rw [card_votersFor, last, length_append, PBFTNode.quorum, fresh.faultNodes]
  · exact Nat.add_le_add_right enough 1
  · have distinct := once m.sequence
    rw [whole, map_append] at distinct
    exact distinct.of_append_left
  · intro other mem
    exact one m.sequence other (front other mem) m
      (front m (by rw [last]; exact mem_append_right _ (mem_singleton_self m)))

theorem not_certified {quorum}
    (few : ((ms.filter (·.block = block)).map (·.nodeID)).toFinset.card < quorum) :
    ¬ Certified quorum ms block := by
  rintro ⟨view, seq, enough⟩
  have lt : votersFor view seq block ms ⊆
      ((ms.filter (·.block = block)).map (·.nodeID)).toFinset := by
    intro n voter
    rw [votersFor, mem_toFinset] at voter
    exact mem_toFinset.mpr (((filter_sublist.filter _).map _).subset voter)
  have fewer := Finset.card_le_card lt
  omega

end

/-- Any two quorums share more nodes than may be faulty exactly for clusters of 3f + 1 nodes. -/
theorem quorums_share_honest_iff (distinct : nodes.Nodup)
    (new : newPBFTConsensus nodeID nodes = some p) :
    (∀ first ⊆ nodes.toFinset, ∀ second ⊆ nodes.toFinset, p.quorum ≤ first.card →
        p.quorum ≤ second.card → p.faultNodes + 1 ≤ (first ∩ second).card) ↔
      nodes.length % 3 = 1 := by
  have fresh := newPBFTConsensus_fresh new
  have positive := fresh.positive
  have card : nodes.toFinset.card = nodes.length := toFinset_card_of_nodup distinct
  rw [PBFTNode.quorum, fresh.faultNodes]
  constructor
  · intro share
    have fits : 2 * ((nodes.length - 1) / 3) + 1 ≤ nodes.toFinset.card := by
      omega
    obtain ⟨first, left, second, right, size, size', common⟩ := Quorum.exists_quorums_inter fits
    have shared := share first left second right size.ge size'.ge
    omega
  · intro remainder first left second right many most
    have overlap := Quorum.card_add_card_le_inter left right
    omega

theorem quorums_share_honest_iff_four :
    ∃ p, newPBFTConsensus (B := Bool) "n1" ["n1", "n2", "n3", "n4"] = some p ∧
      ∀ first ⊆ ["n1", "n2", "n3", "n4"].toFinset, ∀ second ⊆ ["n1", "n2", "n3", "n4"].toFinset,
        p.quorum ≤ first.card → p.quorum ≤ second.card →
          p.faultNodes + 1 ≤ (first ∩ second).card := by
  obtain ⟨p, new⟩ : ∃ p : PBFTNode Bool,
      newPBFTConsensus "n1" ["n1", "n2", "n3", "n4"] = some p := ⟨_, rfl⟩
  exact ⟨p, new, (quorums_share_honest_iff (by decide) new).mpr (by decide)⟩

/-- In a cluster of six nodes, which counts on one faulty node, two quorums of three nodes share
none. -/
theorem quorums_of_six_disjoint :
    ∃ p, newPBFTConsensus (B := Bool) "a" ["a", "b", "c", "d", "e", "f"] = some p ∧
      p.faultNodes = 1 ∧ p.quorum = 3 ∧ ({"a", "b", "c"} : Finset String).card = p.quorum ∧
      ({"d", "e", "f"} : Finset String).card = p.quorum ∧
      ({"a", "b", "c"} ∩ {"d", "e", "f"} : Finset String) = ∅ :=
  ⟨_, rfl, by decide, by decide, by decide, by decide, by decide⟩

end AsyncPractice.PBFTConsensus
