import AsyncPractice.OptimisticConcurrency

/- The same transactions with Commit as one step, and what they amount to when they run one
after another in the order of their commits. -/
namespace AsyncPractice.OptimisticConcurrency.Atomic

section

open List

inductive Operation (V : Type)
  | readNode (nodeID : String)
  | updateNode (nodeID : String) (updates : GoMap String V)

/-- What a `ReadNode` call returned for a node. -/
abbrev Observation (V : Type) := String × Except String (VersionedNode V)

/-- A transaction with the operations made on it and what its reads returned, which only
observe. -/
structure Client (V : Type) where
  tx : GraphTransaction V
  operations : List (Operation V)
  seen : List (Observation V)

/-- A `Commit` that returned nil, with the graph it found. -/
structure Committed (V : Type) where
  found : OptimisticGraph V
  operations : List (Operation V)
  seen : List (Observation V)
  readOrder : List String
  writeOrder : List String

structure State (τ V : Type) where
  graph : OptimisticGraph V
  client : τ → Client V
  log : List (Committed V)

variable {τ V : Type}

def newClient : Client V := ⟨beginTransaction, [], []⟩

def init (og : OptimisticGraph V) : State τ V := ⟨og, fun _ => newClient, []⟩

def perform (og : OptimisticGraph V) (client : Client V) (operation : Operation V) : Client V :=
  match operation with
  | .readNode nodeID =>
    { tx := (readNode og client.tx nodeID).2
      operations := client.operations ++ [operation]
      seen := client.seen ++ [(nodeID, (readNode og client.tx nodeID).1)] }
  | .updateNode nodeID updates =>
    { client with
      tx := updateNode client.tx nodeID updates
      operations := client.operations ++ [operation] }

inductive Action (τ V : Type)
  | perform (t : τ) (operation : Operation V)
  | commit (t : τ) (readOrder writeOrder : List String)

section

variable [DecidableEq τ]

def State.set (s : State τ V) (t : τ) (client : Client V) : State τ V :=
  { s with client := Function.update s.client t client }

def step (s : State τ V) : Action τ V → Option (State τ V)
  | .perform t operation => some (s.set t (perform s.graph (s.client t) operation))
  | .commit t readOrder writeOrder =>
    let client := s.client t
    if GoMap.Ranges readOrder client.tx.readSet ∧ GoMap.Ranges writeOrder client.tx.writeSet then
      match commit s.graph client.tx readOrder writeOrder with
      | .error _ => some s
      | .ok (graph, tx) =>
        some { s.set t { client with tx := tx } with
          graph := graph
          log := s.log ++ [⟨s.graph, client.operations, client.seen, readOrder, writeOrder⟩] }
    else none

end

/-- A transaction that has the graph to itself from its first operation to its commit: what
its reads return and the graph it leaves. -/
def runAlone (og : OptimisticGraph V) (operations : List (Operation V))
    (readOrder writeOrder : List String) :
    List (Observation V) × Except String (OptimisticGraph V) :=
  let client := operations.foldl (perform og) newClient
  (client.seen, (commit og client.tx readOrder writeOrder).map Prod.fst)

/-- Running the committed transactions one after another, each on the graph the one before it
left, lets every read return what it had returned and ends in the graph given. -/
inductive Serial (start : OptimisticGraph V) : List (Committed V) → OptimisticGraph V → Prop
  | nil : Serial start [] start
  | snoc {log : List (Committed V)} {entry : Committed V} {before after : OptimisticGraph V}
      (earlier : Serial start log before)
      (alone : runAlone before entry.operations entry.readOrder entry.writeOrder =
        (entry.seen, .ok after)) :
      Serial start (log ++ [entry]) after

/-- Every read that found a node returned it as the commit found it. -/
def Committed.Current (entry : Committed V) : Prop :=
  ∀ n node, (n, .ok node) ∈ entry.seen → entry.found.nodes.lookup n = some node

def observe (og : OptimisticGraph V) (n : String) : Except String (VersionedNode V) :=
  (readNode og beginTransaction n).1

theorem readNode_observe (og) (tx : GraphTransaction V) (n) :
    (readNode og tx n).1 = observe og n := by
  unfold observe readNode
  split <;> rfl

variable {og : OptimisticGraph V}

theorem observe_ok {n node} : observe og n = .ok node ↔ og.nodes.lookup n = some node := by
  unfold observe readNode
  split
  next absent =>
    simp [absent]
  next found hit =>
    simp [hit]

def record (readSet : GoMap String Int64) : Observation V → GoMap String Int64
  | (n, .ok node) => readSet.insert n node.version
  | (_, .error _) => readSet

theorem readSet_readNode (og) (tx : GraphTransaction V) (n) :
    (readNode og tx n).2.readSet = record tx.readSet (n, (readNode og tx n).1) := by
  unfold readNode
  split <;> rfl

theorem writeSet_readNode (og) (tx : GraphTransaction V) (n) :
    (readNode og tx n).2.writeSet = tx.writeSet := by
  unfold readNode
  split <;> rfl

def Operation.read? : Operation V → Option String
  | .readNode nodeID => some nodeID
  | .updateNode _ _ => none

def Operation.write (writeSet : GoMap String (GoMap String V)) :
    Operation V → GoMap String (GoMap String V)
  | .readNode _ => writeSet
  | .updateNode nodeID updates => writeSet.insert nodeID updates

/-- The two maps of a transaction follow from its operations and what its reads returned. -/
structure Traced (client : Client V) : Prop where
  reads : client.seen.map Prod.fst = client.operations.filterMap Operation.read?
  readSet : client.tx.readSet = client.seen.foldl record ∅
  writeSet : client.tx.writeSet = client.operations.foldl Operation.write ∅

theorem traced_newClient : Traced (newClient : Client V) := ⟨rfl, rfl, rfl⟩

variable {client : Client V}

theorem Traced.perform (traced : Traced client) (og) (operation : Operation V) :
    Traced (perform og client operation) := by
  obtain ⟨reads, readSet, writeSet⟩ := traced
  cases operation with
  | readNode n =>
    constructor
    · simp only [Atomic.perform, map_append, filterMap_append, reads]
      rfl
    · simp only [Atomic.perform, foldl_concat, ← readSet]
      exact readSet_readNode og client.tx n
    · simp only [Atomic.perform, foldl_concat, ← writeSet]
      exact writeSet_readNode og client.tx n
  | updateNode n updates =>
    constructor
    · simp only [Atomic.perform, filterMap_append, reads]
      exact (append_nil _).symm
    · exact readSet
    · simp only [Atomic.perform, foldl_concat, ← writeSet]
      rfl

theorem perform_alone (og) (operations : List (Operation V)) :
    Traced (operations.foldl (perform og) newClient) ∧
      (operations.foldl (perform og) newClient).operations = operations ∧
      ∀ seen ∈ (operations.foldl (perform og) newClient).seen, seen.2 = observe og seen.1 := by
  induction operations using reverseRecOn with
  | nil => exact ⟨traced_newClient, rfl, by simp [newClient]⟩
  | append_singleton operations operation ih =>
    obtain ⟨traced, eq, cur⟩ := ih
    simp only [foldl_concat]
    refine ⟨traced.perform og operation, ?_, ?_⟩
    · cases operation <;> simp only [perform, eq]
    · cases operation with
      | readNode n =>
        intro seen mem
        rcases mem_append.mp mem with mem | mem
        · exact cur seen mem
        · rw [mem_singleton.mp mem]
          exact readNode_observe og _ n
      | updateNode n updates => exact cur

theorem eq_of_map_fst_eq {α β : Type} {x y : List (α × β)} {f : α → β}
    (eq : x.map Prod.fst = y.map Prod.fst) (left : ∀ pair ∈ x, pair.2 = f pair.1)
    (right : ∀ pair ∈ y, pair.2 = f pair.1) : x = y := by
  have g : ∀ list : List (α × β), (∀ pair ∈ list, pair.2 = f pair.1) →
      list = (list.map Prod.fst).map (fun a => (a, f a)) := by
    intro list all
    rw [map_map]
    refine (map_id list).symm.trans (map_congr_left fun pair mem => ?_)
    exact Prod.ext rfl (all pair mem)
  rw [g x left, g y right, eq]

/-- `commit` leaves a graph that depends on the two maps of the transaction only. -/
theorem commit_congr {tx tx'} (reads : tx.readSet = tx'.readSet)
    (ws : tx.writeSet = tx'.writeSet) (rs writeOrder) :
    (commit og tx rs writeOrder).map Prod.fst = (commit og tx' rs writeOrder).map Prod.fst := by
  have valid : validate og tx rs = validate og tx' rs := by
    induction rs with
    | nil => rfl
    | cons eid rest ih => simp only [validate, reads, ih]
  have wrote : ∀ v : Int64, writeNext v tx = writeNext v tx' := by
    intro v
    funext og eid
    simp only [writeNext, ws]
  unfold commit
  rw [valid]
  split
  · rfl
  · simp only [Except.map, wrote]

/-- A client whose reads are all current behaves as if it had the graph to itself. -/
theorem Traced.runAlone (traced : Traced client)
    (cur : ∀ seen ∈ client.seen, seen.2 = observe og seen.1) (readOrder writeOrder) :
    runAlone og client.operations readOrder writeOrder =
      (client.seen, (commit og client.tx readOrder writeOrder).map Prod.fst) := by
  obtain ⟨replayed, eq, observed⟩ := perform_alone og client.operations
  have seen : (client.operations.foldl (Atomic.perform og) newClient).seen = client.seen := by
    refine eq_of_map_fst_eq ?_ observed cur
    rw [replayed.reads, traced.reads, eq]
  unfold Atomic.runAlone
  dsimp only
  rw [seen]
  congr 1
  apply commit_congr
  · rw [replayed.readSet, traced.readSet, seen]
  · rw [replayed.writeSet, traced.writeSet, eq]

end

open Option List GoMap Runs

variable {τ V : Type}

theorem lookup_writes (v) (tx : GraphTransaction V) (order : List String) (og) (n : String) :
    (order.foldl (writeNext v tx) og).nodes.lookup n = og.nodes.lookup n ∨
      ∃ node node', og.nodes.lookup n = some node ∧
        (order.foldl (writeNext v tx) og).nodes.lookup n = some node' ∧
        node'.version = v := by
  induction order using reverseRecOn with
  | nil => exact .inl rfl
  | append_singleton order eid ih =>
    rw [foldl_concat]
    by_cases touched : n = eid ∧ eid ∈ tx.writeSet
    · obtain ⟨rfl, mem⟩ := touched
      obtain ⟨properties, here⟩ := lookup_writeNext_self v (order.foldl (writeNext v tx) og) mem
      rw [here]
      rcases ih with same | ⟨node, node', hit, found', -⟩
      · rw [same]
        cases hit : og.nodes.lookup n with
        | none => exact .inl rfl
        | some node => exact .inr ⟨node, _, rfl, rfl, rfl⟩
      · rw [found']
        exact .inr ⟨node, _, hit, rfl, rfl⟩
    · have untouched : (writeNext v tx (order.foldl (writeNext v tx) og)
          eid).nodes.lookup n = (order.foldl (writeNext v tx) og).nodes.lookup n := by
        by_cases same : n = eid
        · subst same
          have absent : tx.writeSet.lookup n = none :=
            Finmap.lookup_eq_none.mpr fun mem => touched ⟨rfl, mem⟩
          rw [writeNext, absent]
        · exact lookup_writeNext_ne v tx _ same
      rw [untouched]
      exact ih

theorem globalClock_writes (v) (tx : GraphTransaction V) (order : List String) (og) :
    (order.foldl (writeNext v tx) og).globalClock = og.globalClock := by
  induction order generalizing og with
  | nil => rfl
  | cons eid rest ih => rw [foldl_cons, ih, globalClock_writeNext]

/-- The node has not changed since it was read, or has a newer version; one that was not there
is still not there. -/
def Tracks (og : OptimisticGraph V) : Observation V → Prop
  | (n, .ok node) => ∃ node', og.nodes.lookup n = some node' ∧
      node.version.toInt ≤ node'.version.toInt ∧ (node'.version = node.version → node' = node)
  | (n, .error message) => observe og n = .error message

theorem tracks_observe (og : OptimisticGraph V) (n) : Tracks og (n, observe og n) := by
  cases res : observe og n with
  | error msg => exact res
  | ok node => exact ⟨node, observe_ok.mp res, le_rfl, fun _ => rfl⟩

variable {og : OptimisticGraph V} {n : String}

theorem observe_congr {og'} (eq : og'.nodes.lookup n = og.nodes.lookup n) :
    observe og' n = observe og n := by
  unfold observe readNode
  rw [eq]

section

variable {g : OptimisticGraph V} {tx tx' : GraphTransaction V} {rs writeOrder : List String}
  (committed : commit og tx rs writeOrder = .ok (g, tx'))

include committed

theorem lookup_commit (n) :
    g.nodes.lookup n = og.nodes.lookup n ∨
      ∃ node node', og.nodes.lookup n = some node ∧ g.nodes.lookup n = some node' ∧
        node'.version = og.globalClock + 1 := by
  obtain ⟨-, rfl, -⟩ := commit_ok committed
  exact lookup_writes _ tx writeOrder { og with globalClock := og.globalClock + 1 } n

theorem globalClock_commit : g.globalClock = og.globalClock + 1 := by
  obtain ⟨-, rfl, -⟩ := commit_ok committed
  exact globalClock_writes _ tx writeOrder _

variable (bounded : Bounded og) (room : og.globalClock.toInt < 2 ^ 63 - 1)
include bounded room

theorem Bounded.commit : Bounded g := by
  have succ := MachineInt.toInt_add_one room
  intro n node hit
  rw [globalClock_commit committed, succ]
  rcases lookup_commit committed n with same | ⟨old, new, -, found', fresh⟩
  · rw [same] at hit
    have bound := bounded n node hit
    omega
  · rw [found', some.injEq] at hit
    rw [← hit, fresh, succ]

theorem Tracks.commit {observation} (inv : Tracks og observation) : Tracks g observation := by
  have succ := MachineInt.toInt_add_one room
  obtain ⟨n, res⟩ := observation
  cases res with
  | error msg =>
    change observe g n = .error msg
    rcases lookup_commit committed n with eq | ⟨old, new, hit, -, -⟩
    · rw [observe_congr eq]
      exact inv
    · have found' := observe_ok.mpr hit
      rw [show observe og n = .error msg from inv] at found'
      cases found'
  | ok node =>
    obtain ⟨cur, hit, older, unchanged⟩ := inv
    rcases lookup_commit committed n with eq | ⟨old, new, found', wrote, fresh⟩
    · exact ⟨cur, by rw [eq, hit], older, unchanged⟩
    · rw [hit, some.injEq] at found'
      have bound := bounded n cur hit
      -- The drawn version is larger than any version there was.
      have newer : node.version.toInt < new.version.toInt := by
        rw [fresh, succ]
        omega
      refine ⟨new, wrote, le_of_lt newer, fun equal => ?_⟩
      rw [equal] at newer
      exact absurd newer (lt_irrefl _)

end

/-- No node was read at two different versions. -/
def Consistent (seen : List (Observation V)) : Prop :=
  ∀ n node node', (n, .ok node) ∈ seen → (n, .ok node') ∈ seen → node.version = node'.version

theorem Committed.Current.consistent {e : Committed V} (cur : e.Current) :
    Consistent e.seen := by
  intro n node node' x y
  have eq := cur n node x
  rw [cur n node' y, some.injEq] at eq
  rw [eq]

variable {start g : OptimisticGraph V}

theorem Serial.consistent {log} (serial : Serial start log g) : ∀ e ∈ log, Consistent e.seen := by
  induction serial with
  | nil => simp
  | @snoc log e pre after earlier alone ih =>
    refine forall_mem_snoc ih ?_
    have seen := (Prod.mk.inj alone).1
    intro n node node' x y
    rw [← seen] at x y
    have observed := (perform_alone pre e.operations).2.2
    have eq := (observed _ x).trans (observed _ y).symm
    cases eq
    rfl

variable {seen : List (Observation V)}

theorem lookup_record (inv : Consistent seen) {node} (mem : (n, .ok node) ∈ seen) :
    (seen.foldl record ∅).lookup n = some node.version := by
  induction seen using reverseRecOn with
  | nil => cases mem
  | append_singleton seen last ih =>
    have front : Consistent seen := fun n node node' x y =>
      inv n node node' (mem_append_left _ x) (mem_append_left _ y)
    rw [foldl_concat]
    obtain ⟨m, res⟩ := last
    cases res with
    | error msg =>
      have lt : (n, Except.ok node) ∈ seen := by simpa using mem
      exact ih front lt
    | ok newest =>
      dsimp only [record]
      rw [lookup_insert_ite]
      split
      next eq =>
        subst eq
        rw [inv n newest node (by simp) mem]
      next ne =>
        have lt : (n, Except.ok node) ∈ seen := by
          rcases mem_append.mp mem with mem | mem
          · exact mem
          · cases mem_singleton.mp mem
            exact absurd rfl ne
        exact ih front lt

/-- A transaction whose repeated reads agree, and whose read set is current, has read what is
there now. -/
theorem observe_of_current {client} (traced : Traced client)
    (inv : ∀ observation ∈ client.seen, Tracks og observation)
    (consistent : Consistent client.seen) (cur : ReadsCurrent og client.tx) :
    ∀ observation ∈ client.seen, observation.2 = observe og observation.1 := by
  rintro ⟨n, res⟩ mem
  have followed := inv _ mem
  cases res with
  | error msg => exact Eq.symm followed
  | ok node =>
    have recorded : client.tx.readSet.lookup n = some node.version := by
      rw [traced.readSet]
      exact lookup_record consistent mem
    obtain ⟨node', found', ver⟩ := cur n node.version recorded
    obtain ⟨latest, hit, -, unchanged⟩ := followed
    rw [hit, some.injEq] at found'
    subst found'
    rw [unchanged ver] at hit
    exact (observe_ok.mpr hit).symm

structure Sound (start : OptimisticGraph V) (s : State τ V) : Prop where
  bounded : Bounded s.graph
  traced : ∀ t, Traced (s.client t)
  tracks : ∀ t, ∀ observation ∈ (s.client t).seen, Tracks s.graph observation
  current : ∀ entry ∈ s.log, entry.Current
  serial : Serial start s.log s.graph

theorem init_sound (inv : ∀ n node, og.nodes.lookup n = some node → node.version ≤ og.globalClock) :
    Sound og (init og : State τ V) where
  bounded := bounded_of_le inv
  traced := fun _ => traced_newClient
  tracks := by simp [init, newClient]
  current := by simp [init]
  serial := .nil

variable [DecidableEq τ]

/-- A transaction that comes to its commit with a current read set has read every node at one
version only. -/
def Repeatable (s : State τ V) : Action τ V → Prop
  | .perform _ _ => True
  | .commit t readOrder writeOrder =>
    Ranges readOrder (s.client t).tx.readSet →
    Ranges writeOrder (s.client t).tx.writeSet →
    ReadsCurrent s.graph (s.client t).tx → Consistent (s.client t).seen

theorem set_client (s : State τ V) (t u) (client : Client V) :
    (s.set t client).client u = if u = t then client else s.client u := by
  by_cases same : u = t
  · subst same
    simp [State.set]
  · simp [State.set, same]

inductive Moves (s : State τ V) : Action τ V → State τ V → Prop
  | perform (t : τ) (operation : Operation V) :
      Moves s (.perform t operation) (s.set t (Atomic.perform s.graph (s.client t) operation))
  | conflict (t : τ) (readOrder writeOrder : List String) :
      Moves s (.commit t readOrder writeOrder) s
  | commit (t : τ) (readOrder writeOrder : List String) (graph : OptimisticGraph V)
      (tx : GraphTransaction V) (reads : Ranges readOrder (s.client t).tx.readSet)
      (writes : Ranges writeOrder (s.client t).tx.writeSet)
      (committed : commit s.graph (s.client t).tx readOrder writeOrder = .ok (graph, tx)) :
      Moves s (.commit t readOrder writeOrder)
        { s.set t { s.client t with tx := tx } with
          graph := graph
          log := s.log ++
            [⟨s.graph, (s.client t).operations, (s.client t).seen, readOrder, writeOrder⟩] }

variable {s s' : State τ V} {action : Action τ V}

theorem moves_of_step (took : step s action = some s') : Moves s action s' := by
  cases action with
  | perform t operation =>
    cases took
    exact .perform t operation
  | commit t rs writeOrder =>
    simp only [step] at took
    split at took
    next ranges =>
      split at took
      · cases took
        exact .conflict t rs writeOrder
      next g tx committed =>
        cases took
        exact .commit t rs writeOrder g tx ranges.1 ranges.2 committed
    · cases took

theorem Sound.perform (inv : Sound start s) (t : τ) (operation) :
    Sound start (s.set t (Atomic.perform s.graph (s.client t) operation)) := by
  refine ⟨inv.bounded, ?_, ?_, inv.current, inv.serial⟩
  · intro u
    rw [set_client]
    split
    · exact (inv.traced t).perform s.graph operation
    · exact inv.traced u
  · intro u
    rw [set_client]
    split
    · cases operation with
      | readNode nodeID =>
        refine forall_mem_snoc (inv.tracks t) ?_
        rw [readNode_observe]
        exact tracks_observe s.graph nodeID
      | updateNode nodeID updates => exact inv.tracks t
    · exact inv.tracks u

theorem Sound.commit (inv : Sound start s) {t rs writeOrder tx}
    (reads : Ranges rs (s.client t).tx.readSet)
    (ws : Ranges writeOrder (s.client t).tx.writeSet)
    (committed : commit s.graph (s.client t).tx rs writeOrder = .ok (g, tx))
    (repeatable : Repeatable s (.commit t rs writeOrder))
    (room : s.graph.globalClock.toInt < 2 ^ 63 - 1) :
    Sound start { s.set t { s.client t with tx := tx } with
      graph := g
      log := s.log ++
        [⟨s.graph, (s.client t).operations, (s.client t).seen, rs, writeOrder⟩] } := by
  obtain ⟨valid, -, final⟩ := commit_ok committed
  have cur := (validate_iff reads).mp valid
  have now := observe_of_current (inv.traced t) (inv.tracks t) (repeatable reads ws cur) cur
  constructor
  · exact Bounded.commit committed inv.bounded room
  · intro u
    change Traced ((s.set t _).client u)
    rw [set_client]
    split
    · have traced := inv.traced t
      exact ⟨traced.reads, by rw [final]; exact traced.readSet,
        by rw [final]; exact traced.writeSet⟩
    · exact inv.traced u
  · intro u observation mem
    change observation ∈ ((s.set t _).client u).seen at mem
    rw [set_client] at mem
    split at mem
    · exact Tracks.commit committed inv.bounded room (inv.tracks t observation mem)
    · exact Tracks.commit committed inv.bounded room (inv.tracks u observation mem)
  · exact forall_mem_snoc inv.current (fun n node lt => observe_ok.mp (now (n, .ok node) lt).symm)
  · apply Serial.snoc inv.serial
    rw [(inv.traced t).runAlone now, committed]
    rfl

theorem Sound.step (inv : Sound start s) (repeatable : Repeatable s action)
    (room : s.graph.globalClock.toInt < 2 ^ 63 - 1) (took : step s action = some s') :
    Sound start s' := by
  cases moves_of_step took with
  | perform t operation => exact inv.perform t operation
  | conflict t rs writeOrder => exact inv
  | commit t rs writeOrder g tx reads ws committed =>
    exact inv.commit reads ws committed repeatable room

theorem clock_step (took : step s action = some s') :
    s'.graph.globalClock.toInt ≤ s.graph.globalClock.toInt + 1 := by
  cases moves_of_step took with
  | perform t operation =>
    dsimp only [State.set]
    omega
  | conflict t rs writeOrder => omega
  | commit t rs writeOrder g tx reads ws committed =>
    rw [globalClock_commit committed]
    exact MachineInt.toInt_add_one_le s.graph.globalClock

/-- If every committed transaction has read what its commit found, the reads of each agree. -/
theorem repeatable_of_current {actions : List (Action τ V)}
    (run : exec step (init og) actions = some s) (cur : ∀ e ∈ s.log, e.Current) :
    Along step Repeatable (init og) actions := by
  induction actions using reverseRecOn generalizing s with
  | nil => exact Along.nil
  | append_singleton actions action ih =>
    obtain ⟨last, pre, took⟩ := exec_snoc_some.mp run
    have grown : ∀ e ∈ last.log, e ∈ s.log := by
      intro e mem
      cases moves_of_step took with
      | commit => exact mem_append_left _ mem
      | _ => exact mem
    refine (ih pre fun e mem => cur e (grown e mem)).snoc ?_
    intro state eq
    rw [pre, some.injEq] at eq
    subst eq
    cases action with
    | perform t operation => trivial
    | commit t rs writeOrder =>
      intro reads ws unchanged
      obtain ⟨g, tx, committed⟩ := commit_of_current unchanged rs writeOrder
      have logged : ⟨last.graph, (last.client t).operations, (last.client t).seen, rs,
          writeOrder⟩ ∈ s.log := by
        simp only [step, committed] at took
        rw [if_pos ⟨reads, ws⟩] at took
        cases took
        exact mem_append_right _ (mem_singleton_self _)
      exact (cur _ logged).consistent

/-- Committed transactions have read what their commit found, and amount to running one after
another in the order of their commits, exactly if no transaction with a current read set comes
to its commit after reading a node at two different versions. -/
theorem committed_reads_current_iff (og : OptimisticGraph V)
    (bounded : ∀ n node, og.nodes.lookup n = some node → node.version ≤ og.globalClock)
    (actions : List (Action τ V)) (s : State τ V) (run : exec step (init og) actions = some s)
    (room : og.globalClock.toInt + actions.length < 2 ^ 63) :
    ((∀ entry ∈ s.log, entry.Current) ∧ Serial og s.log s.graph) ↔
      Along step Repeatable (init og) actions := by
  constructor
  · exact fun held => repeatable_of_current run held.1
  · intro repeatable
    have early : Along step (fun s _ => s.graph.globalClock.toInt < 2 ^ 63 - 1) (init og) actions :=
      along_of_room (fun s : State τ V => s.graph.globalClock.toInt)
        (fun _ _ _ stepped => clock_step stepped) (Int.le_sub_one_of_lt room)
    have sound : Sound og s := exec_guarded (Sound og) (init_sound bounded)
      (fun s action s' sound ok stepped => sound.step ok.1 ok.2 stepped) run (repeatable.and early)
    exact ⟨sound.current, sound.serial⟩

def versions (seen : List (Observation V)) : List (String × Int64) :=
  seen.filterMap fun observation =>
    match observation.2 with
    | .ok node => some (observation.1, node.version)
    | .error _ => none

theorem mem_versions {version} :
    (n, version) ∈ versions seen ↔ ∃ node, (n, .ok node) ∈ seen ∧ node.version = version := by
  simp only [versions, mem_filterMap]
  constructor
  · rintro ⟨⟨m, res⟩, mem, same⟩
    cases res with
    | error msg => cases same
    | ok node =>
      cases same
      exact ⟨node, mem, rfl⟩
  · rintro ⟨node, mem, rfl⟩
    exact ⟨(n, .ok node), mem, rfl⟩

theorem consistent_of_versions (agree : ∀ x ∈ versions seen, ∀ y ∈ versions seen, x.1 = y.1 →
      x.2 = y.2) : Consistent seen := by
  intro n node node' x y
  exact agree (n, node.version) (mem_versions.mpr ⟨node, x, rfl⟩) (n, node'.version)
    (mem_versions.mpr ⟨node', y, rfl⟩) rfl

def repeatedReadActions : List (Action Bool Nat) :=
  [.perform true (.readNode "X"), .perform true (.updateNode "X" ∅), .commit true ["X"] ["X"],
    .perform false (.readNode "X"), .perform false (.readNode "X"),
    .perform false (.updateNode "Y" ∅), .commit false ["X"] ["Y"]]

theorem committed_reads_current_iff_repeated_read :
    ∃ s, exec step (init newPair) repeatedReadActions = some s ∧ s.log.length = 2 ∧
      (∀ entry ∈ s.log, entry.Current) ∧ Serial newPair s.log s.graph := by
  refine exists_exec (fun s => s.log.length = 2) (by decide) fun s run count => ⟨count, ?_⟩
  refine (committed_reads_current_iff newPair newPair_bounded repeatedReadActions s run
    (by decide)).mpr (along_of_check (fun s action => match action with
    | .commit t _ _ => decide (∀ first ∈ versions (s.client t).seen,
        ∀ second ∈ versions (s.client t).seen, first.1 = second.1 → first.2 = second.2)
    | _ => true) ?_ (by decide))
  intro s action passed
  cases action with
  | perform t operation => trivial
  | commit t readOrder writeOrder =>
    intro _ _ _
    exact consistent_of_versions (of_decide_eq_true passed)

/-- A transaction reads X, another one writes X and commits, and the first reads X again. Its
read set then holds the second version only. -/
def changedReadActions : List (Action Bool Nat) :=
  [.perform false (.readNode "X"), .perform true (.updateNode "X" ∅), .commit true [] ["X"],
    .perform false (.readNode "X"), .commit false ["X"] []]

theorem commits_after_changed_read :
    ∃ s, exec step (init newPair) changedReadActions = some s ∧
      (∃ entry ∈ s.log, versions entry.seen = [("X", 0), ("X", 1)] ∧ ¬ entry.Current) ∧
      ¬ Serial newPair s.log s.graph := by
  refine exists_exec (fun s => s.log.map (fun entry => versions entry.seen) =
    [[], [("X", 0), ("X", 1)]]) (by decide) ?_
  intro s run entries
  have logged : [("X", (0 : Int64)), ("X", 1)] ∈ s.log.map (fun entry => versions entry.seen) := by
    rw [entries]
    decide
  obtain ⟨entry, member, reads⟩ := mem_map.mp logged
  have inconsistent : ¬ Consistent entry.seen := by
    intro consistent
    obtain ⟨node, first, zero⟩ := mem_versions.mp
      (show ("X", (0 : Int64)) ∈ versions entry.seen by rw [reads]; decide)
    obtain ⟨node', second, one⟩ := mem_versions.mp
      (show ("X", (1 : Int64)) ∈ versions entry.seen by rw [reads]; decide)
    have same := consistent "X" node node' first second
    rw [zero, one] at same
    exact absurd same (by decide)
  exact ⟨⟨entry, member, reads, fun current => inconsistent current.consistent⟩,
    fun serial => inconsistent (serial.consistent entry member)⟩

end AsyncPractice.OptimisticConcurrency.Atomic
