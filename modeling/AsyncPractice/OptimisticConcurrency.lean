import AsyncPractice.GoMap
import AsyncPractice.MachineInt
import AsyncPractice.Runs

/- The graph with optimistic concurrency control, solution 3 of the graph database. A map is
ranged over in an order the program does not control, so that a loop takes its order as an
argument. -/
namespace AsyncPractice.OptimisticConcurrency

section

structure VersionedNode (V : Type) where
  version : Int64
  properties : GoMap String V

inductive Status
  | active
  | committed

structure GraphTransaction (V : Type) where
  readSet : GoMap String Int64
  writeSet : GoMap String (GoMap String V)
  status : Status

/-- The nodes and the clock of the transaction manager. -/
structure OptimisticGraph (V : Type) where
  nodes : GoMap String (VersionedNode V)
  globalClock : Int64

variable {V : Type}

def beginTransaction : GraphTransaction V := ⟨∅, ∅, .active⟩

def readNode (og : OptimisticGraph V) (tx : GraphTransaction V) (nodeID : String) :
    Except String (VersionedNode V) × GraphTransaction V :=
  match og.nodes.lookup nodeID with
  | none => (.error ("node " ++ nodeID ++ " not found"), tx)
  | some node => (.ok node, { tx with readSet := tx.readSet.insert nodeID node.version })

def updateNode (tx : GraphTransaction V) (nodeID : String) (updates : GoMap String V) :
    GraphTransaction V :=
  { tx with writeSet := tx.writeSet.insert nodeID updates }

def validateEntity (og : OptimisticGraph V) (entityID : String) (readVersion : Int64) :
    Except String Unit :=
  match og.nodes.lookup entityID with
  | none => .error ("node " ++ entityID ++ " was deleted")
  | some node =>
    if node.version ≠ readVersion then
      .error ("conflict on node " ++ entityID ++ ": read version " ++ toString readVersion ++
        ", current version " ++ toString node.version)
    else .ok ()

/-- One pass of the write loop. The updates replace the properties of the same name. -/
def writeEntity (og : OptimisticGraph V) (newVersion : Int64) (entityID : String)
    (updates : GoMap String V) : OptimisticGraph V :=
  match og.nodes.lookup entityID with
  | none => og
  | some node =>
    { og with nodes := og.nodes.insert entityID ⟨newVersion, updates ∪ node.properties⟩ }

def validate (og : OptimisticGraph V) (tx : GraphTransaction V) : List String → Except String Unit
  | [] => .ok ()
  | entityID :: rest =>
    match tx.readSet.lookup entityID with
    | none => validate og tx rest
    | some readVersion =>
      match validateEntity og entityID readVersion with
      | .error conflict => .error conflict
      | .ok () => validate og tx rest

def writeNext (newVersion : Int64) (tx : GraphTransaction V) (og : OptimisticGraph V)
    (entityID : String) : OptimisticGraph V :=
  match tx.writeSet.lookup entityID with
  | none => og
  | some updates => writeEntity og newVersion entityID updates

/-- `Commit` as one step: the graph and the transaction it leaves, or its error. -/
def commit (og : OptimisticGraph V) (tx : GraphTransaction V) (readOrder writeOrder : List String) :
    Except String (OptimisticGraph V × GraphTransaction V) :=
  match validate og tx readOrder with
  | .error conflict => .error conflict
  | .ok () =>
    let newVersion := og.globalClock + 1
    .ok (writeOrder.foldl (writeNext newVersion tx) { og with globalClock := newVersion },
      { tx with status := .committed })

variable {og : OptimisticGraph V} {entityID : String} {readVersion : Int64}

theorem validateEntity_ok :
    validateEntity og entityID readVersion = .ok () ↔
      ∃ n, og.nodes.lookup entityID = some n ∧ n.version = readVersion := by
  unfold validateEntity
  split
  next absent =>
    simp [absent]
  next n hit =>
    by_cases same : n.version = readVersion <;> simp [hit, same]

/-- No node is newer than the clock. -/
def Bounded (og : OptimisticGraph V) : Prop :=
  ∀ n node, og.nodes.lookup n = some node → node.version.toInt ≤ og.globalClock.toInt

theorem bounded_of_le
    (inv : ∀ n node, og.nodes.lookup n = some node → node.version ≤ og.globalClock) :
    Bounded og :=
  fun n node hit => Int64.le_iff_toInt_le.mp (inv n node hit)

/-- Every version the transaction has recorded is the one its node has. -/
def ReadsCurrent (og : OptimisticGraph V) (tx : GraphTransaction V) : Prop :=
  ∀ entityID readVersion, tx.readSet.lookup entityID = some readVersion →
    ∃ node, og.nodes.lookup entityID = some node ∧ node.version = readVersion

variable {tx : GraphTransaction V} {order : List String}

theorem validate_ok (ok : validate og tx order = .ok ()) (mem : entityID ∈ order)
    (rec : tx.readSet.lookup entityID = some readVersion) :
    ∃ node, og.nodes.lookup entityID = some node ∧ node.version = readVersion := by
  induction order with
  | nil => cases mem
  | cons x rest ih =>
    unfold validate at ok
    rcases List.mem_cons.mp mem with rfl | mem
    · rw [rec] at ok
      dsimp only at ok
      split at ok
      · cases ok
      next valid =>
        exact validateEntity_ok.mp valid
    · split at ok
      · exact ih ok mem
      · split at ok
        · cases ok
        · exact ih ok mem

theorem validate_of_current (cur : ReadsCurrent og tx) (order) :
    validate og tx order = .ok () := by
  induction order with
  | nil => rfl
  | cons entityID rest ih =>
    unfold validate
    split
    · exact ih
    next readVersion recorded =>
      rw [validateEntity_ok.mpr (cur entityID readVersion recorded)]
      exact ih

/-- The validation loop passes exactly when every recorded version is current. -/
theorem validate_iff (ranges : GoMap.Ranges order tx.readSet) :
    validate og tx order = .ok () ↔ ReadsCurrent og tx := by
  constructor
  · intro ok entityID readVersion rec
    exact validate_ok ok (ranges.mem_iff.mpr (Finmap.mem_of_lookup_eq_some rec)) rec
  · exact fun cur => validate_of_current cur order

theorem commit_ok {g tx' readOrder writeOrder}
    (committed : commit og tx readOrder writeOrder = .ok (g, tx')) :
    validate og tx readOrder = .ok () ∧ g = writeOrder.foldl (writeNext (og.globalClock + 1) tx)
        { og with globalClock := og.globalClock + 1 } ∧
      tx' = { tx with status := .committed } := by
  unfold commit at committed
  split at committed <;> cases committed
  rename_i valid
  exact ⟨valid, rfl, rfl⟩

theorem commit_of_current (cur : ReadsCurrent og tx) (readOrder writeOrder) :
    ∃ graph tx', commit og tx readOrder writeOrder = .ok (graph, tx') := by
  unfold commit
  rw [validate_of_current cur readOrder]
  exact ⟨_, _, rfl⟩

theorem lookup_writeEntity (og) (v : Int64) (entityID n) (updates : GoMap String V) :
    (writeEntity og v entityID updates).nodes.lookup n = if n = entityID then
        (og.nodes.lookup n).map (fun node => ⟨v, updates ∪ node.properties⟩)
      else og.nodes.lookup n := by
  unfold writeEntity
  split
  next absent =>
    split
    next eq =>
      rw [eq, absent]
      rfl
    · rfl
  next node hit =>
    rw [GoMap.lookup_insert_ite]
    split
    next eq =>
      rw [eq, hit]
      rfl
    · rfl

@[simp] theorem globalClock_writeNext (v) (tx : GraphTransaction V) (og) (entityID : String) :
    (writeNext v tx og entityID).globalClock = og.globalClock := by
  unfold writeNext writeEntity
  split
  · rfl
  · split <;> rfl

theorem lookup_writeNext_ne (v) (tx : GraphTransaction V) (og) {n} (other : n ≠ entityID) :
    (writeNext v tx og entityID).nodes.lookup n = og.nodes.lookup n := by
  unfold writeNext
  split
  · rfl
  · rw [lookup_writeEntity, if_neg other]

theorem lookup_writeNext_self (v) (og : OptimisticGraph V) (mem : entityID ∈ tx.writeSet) :
    ∃ properties : VersionedNode V → GoMap String V,
      (writeNext v tx og entityID).nodes.lookup entityID =
        (og.nodes.lookup entityID).map (fun n => ⟨v, properties n⟩) := by
  obtain ⟨updates, hit⟩ := Finmap.mem_iff.mp mem
  refine ⟨fun n => updates ∪ n.properties, ?_⟩
  rw [writeNext, hit]
  rw [lookup_writeEntity, if_pos rfl]

def newPair : OptimisticGraph Nat where
  nodes := ((∅ : GoMap String (VersionedNode Nat)).insert "X" ⟨0, ∅⟩).insert "Y" ⟨0, ∅⟩
  globalClock := 0

theorem newPair_bounded :
    ∀ n node, newPair.nodes.lookup n = some node → node.version ≤ newPair.globalClock := by
  intro n node hit
  simp only [newPair, GoMap.lookup_insert_ite, Finmap.lookup_empty] at hit
  split at hit
  · cases hit
    decide
  · split at hit <;> cases hit
    decide

end

/- Commit taken apart: one step for each validation read, one for the clock, one for each
write. The steps of any number of transactions interleave; what one transaction does is
sequential, since its two maps have no lock. -/
open GoMap Runs

/-- Where a transaction stands in `Commit`, with what its loop still has to visit. -/
inductive Phase
  | active
  | validating (todo : List String)
  | writing (newVersion : Int64) (todo : List String)
  deriving DecidableEq

/-- A transaction, its place in `Commit` and what `Commit` last returned. -/
structure Session (V : Type) where
  tx : GraphTransaction V
  phase : Phase
  returned : Option (Except String Unit)

/-- `log` are the transactions whose `Commit` returned nil, as they were then. -/
structure State (τ V : Type) where
  graph : OptimisticGraph V
  session : τ → Session V
  log : List (GraphTransaction V)

variable {τ V : Type}

def init (og : OptimisticGraph V) : State τ V where
  graph := og
  session := fun _ => ⟨beginTransaction, .active, none⟩
  log := []

variable [DecidableEq τ]

def State.set (s : State τ V) (t : τ) (session : Session V) : State τ V :=
  { s with session := Function.update s.session t session }

def validateNext (og : OptimisticGraph V) (session : Session V) (entityID : String)
    (rest : List String) : Session V :=
  match session.tx.readSet.lookup entityID with
  | none => { session with phase := .validating rest }
  | some readVersion =>
    match validateEntity og entityID readVersion with
    | .error conflict => { session with phase := .active, returned := some (.error conflict) }
    | .ok () => { session with phase := .validating rest }

inductive Action (τ V : Type)
  | readNode (t : τ) (nodeID : String)
  | updateNode (t : τ) (nodeID : String) (updates : GoMap String V)
  | startCommit (t : τ) (order : List String)
  | validateNext (t : τ)
  | drawVersion (t : τ) (order : List String)
  | writeNext (t : τ)
  | finishCommit (t : τ)

def step (s : State τ V) : Action τ V → Option (State τ V)
  | .readNode t nodeID =>
    match (s.session t).phase with
    | .active =>
      some (s.set t { s.session t with tx := (readNode s.graph (s.session t).tx nodeID).2 })
    | _ => none
  | .updateNode t nodeID updates =>
    match (s.session t).phase with
    | .active =>
      some (s.set t { s.session t with tx := updateNode (s.session t).tx nodeID updates })
    | _ => none
  | .startCommit t order =>
    match (s.session t).phase with
    | .active =>
      if Ranges order (s.session t).tx.readSet then
        some (s.set t { s.session t with phase := .validating order })
      else none
    | _ => none
  | .validateNext t =>
    match (s.session t).phase with
    | .validating (entityID :: rest) =>
      some (s.set t (validateNext s.graph (s.session t) entityID rest))
    | _ => none
  | .drawVersion t order =>
    match (s.session t).phase with
    | .validating [] =>
      if Ranges order (s.session t).tx.writeSet then
        let newVersion := s.graph.globalClock + 1
        some { s.set t { s.session t with phase := .writing newVersion order } with
          graph := { s.graph with globalClock := newVersion } }
      else none
    | _ => none
  | .writeNext t =>
    match (s.session t).phase with
    | .writing newVersion (entityID :: rest) =>
      some { s.set t { s.session t with phase := .writing newVersion rest } with
        graph := writeNext newVersion (s.session t).tx s.graph entityID }
    | _ => none
  | .finishCommit t =>
    match (s.session t).phase with
    | .writing _ [] =>
      let tx := { (s.session t).tx with status := .committed }
      some { s.set t ⟨tx, .active, some (.ok ())⟩ with log := s.log ++ [tx] }
    | _ => none

@[simp] theorem set_session (s : State τ V) (t) (ss : Session V) :
    (s.set t ss).session t = ss := by
  simp [State.set]

theorem set_session_ne (s : State τ V) {t u} (session) (other : u ≠ t) :
    (s.set t session).session u = s.session u := by
  simp [State.set, other]

inductive Moves (s : State τ V) : Action τ V → State τ V → Prop
  | touch (action : Action τ V) (t : τ) (tx : GraphTransaction V)
      (active : (s.session t).phase = .active) :
      Moves s action (s.set t { s.session t with tx := tx })
  | start (t : τ) (order : List String) (active : (s.session t).phase = .active)
      (ranges : Ranges order (s.session t).tx.readSet) :
      Moves s (.startCommit t order) (s.set t { s.session t with phase := .validating order })
  | conflict (t : τ) (entityID : String) (rest : List String) (message : String)
      (validating : (s.session t).phase = .validating (entityID :: rest)) :
      Moves s (.validateNext t)
        (s.set t { s.session t with phase := .active, returned := some (.error message) })
  | agree (t : τ) (entityID : String) (rest : List String)
      (validating : (s.session t).phase = .validating (entityID :: rest))
      (valid : ∀ readVersion, (s.session t).tx.readSet.lookup entityID = some readVersion →
        ∃ node, s.graph.nodes.lookup entityID = some node ∧ node.version = readVersion) :
      Moves s (.validateNext t) (s.set t { s.session t with phase := .validating rest })
  | draw (t : τ) (order : List String) (validating : (s.session t).phase = .validating [])
      (ranges : Ranges order (s.session t).tx.writeSet) :
      Moves s (.drawVersion t order)
        { s.set t { s.session t with phase := .writing (s.graph.globalClock + 1) order } with
          graph := { s.graph with globalClock := s.graph.globalClock + 1 } }
  | write (t : τ) (newVersion : Int64) (entityID : String) (rest : List String)
      (writing : (s.session t).phase = .writing newVersion (entityID :: rest)) :
      Moves s (.writeNext t)
        { s.set t { s.session t with phase := .writing newVersion rest } with
          graph := writeNext newVersion (s.session t).tx s.graph entityID }
  | finish (t : τ) (newVersion : Int64) (writing : (s.session t).phase = .writing newVersion []) :
      Moves s (.finishCommit t)
        { s.set t ⟨{ (s.session t).tx with status := .committed }, .active, some (.ok ())⟩ with
          log := s.log ++ [{ (s.session t).tx with status := .committed }] }

theorem moves_of_step {s s' : State τ V} {a : Action τ V} (took : step s a = some s') :
    Moves s a s' := by
  cases a with
  | readNode t n | updateNode t n updates =>
    simp only [step] at took
    split at took <;> cases took
    rename_i active
    exact .touch _ t _ active
  | startCommit t order =>
    simp only [step] at took
    split at took
    next active =>
      split at took <;> cases took
      rename_i ranges
      exact .start t order active ranges
    · cases took
  | validateNext t =>
    simp only [step] at took
    split at took <;> cases took
    rename_i eid rest check
    unfold validateNext
    split
    next absent =>
      exact .agree t eid rest check (by simp [absent])
    next readVersion recorded =>
      split
      · exact .conflict t eid rest _ check
      next valid =>
        apply Moves.agree t eid rest check
        intro ver eq
        rw [recorded, Option.some.injEq] at eq
        exact validateEntity_ok.mp (eq ▸ valid)
  | drawVersion t order =>
    simp only [step] at took
    split at took
    next check =>
      split at took <;> cases took
      rename_i ranges
      exact .draw t order check ranges
    · cases took
  | writeNext t =>
    simp only [step] at took
    split at took <;> cases took
    rename_i v eid rest writing
    exact .write t v eid rest writing
  | finishCommit t =>
    simp only [step] at took
    split at took <;> cases took
    rename_i v writing
    exact .finish t v writing

section

def State.at (s : State τ V) (t : τ) (graph : OptimisticGraph V) (session : Session V) :
    State τ V :=
  { s.set t session with graph := graph }

variable (s : State τ V) (t : τ) (g : OptimisticGraph V)
include s t g

theorem at_session (ss : Session V) : (s.at t g ss).session t = ss :=
  set_session s t ss

theorem at_set (session next) : (s.at t g session).set t next = s.at t g next := by
  simp [State.at, State.set]

theorem exec_validate (ss : Session V) (order) (valid : validate g ss.tx order = .ok ()) :
    exec step (s.at t g { ss with phase := .validating order })
      (order.map fun _ => .validateNext t) =
      some (s.at t g { ss with phase := .validating [] }) := by
  induction order with
  | nil => rfl
  | cons eid rest ih =>
    have next : validateNext g { ss with phase := .validating (eid :: rest) }
        eid rest = { ss with phase := .validating rest } ∧
        validate g ss.tx rest = .ok () := by
      unfold validate at valid
      unfold validateNext
      split at valid
      next absent =>
        simp only [absent]
        exact ⟨trivial, valid⟩
      next readVersion recorded =>
        split at valid
        · cases valid
        next passed =>
          simp only [recorded, passed]
          exact ⟨trivial, valid⟩
    refine exec_cons_some.mpr ⟨_, ?_, ih next.2⟩
    simp only [step, at_session, at_set]
    exact congrArg (fun ss => some (s.at t g ss)) next.1

theorem exec_write (ss : Session V) (v : Int64) (order : List String) :
    exec step (s.at t g { ss with phase := .writing v order }) (order.map fun _ => .writeNext t) =
      some (s.at t (order.foldl (writeNext v ss.tx) g) { ss with phase := .writing v [] }) := by
  induction order generalizing g with
  | nil => rfl
  | cons eid rest ih =>
    refine exec_cons_some.mpr ⟨_, ?_, ih (writeNext v ss.tx g eid)⟩
    simp only [step, at_session, at_set]
    rfl

omit s t g

/-- The steps of one `Commit` in a row, with the orders its two loops take. -/
def commitActions (t : τ) (readOrder writeOrder : List String) : List (Action τ V) :=
  [.startCommit t readOrder] ++ (readOrder.map fun _ => .validateNext t) ++
    [.drawVersion t writeOrder] ++ (writeOrder.map fun _ => .writeNext t) ++ [.finishCommit t]

/-- Without interruption the steps of a `Commit` that returns nil do what `commit` does. -/
theorem exec_commitActions (s : State τ V) (t) {rs writeOrder g tx}
    (active : (s.session t).phase = .active) (reads : Ranges rs (s.session t).tx.readSet)
    (ws : Ranges writeOrder (s.session t).tx.writeSet)
    (committed : commit s.graph (s.session t).tx rs writeOrder = .ok (g, tx)) :
    exec step s (commitActions t rs writeOrder) =
      some { s.at t g ⟨tx, .active, some (.ok ())⟩ with log := s.log ++ [tx] } := by
  obtain ⟨valid, rfl, rfl⟩ := commit_ok committed
  have started : step s (.startCommit t rs) =
      some (s.at t s.graph { s.session t with phase := .validating rs }) := by
    simp only [step, active]
    exact if_pos reads
  have drawn : step (s.at t s.graph { s.session t with phase := .validating [] })
      (.drawVersion t writeOrder) =
      some (s.at t { s.graph with globalClock := s.graph.globalClock + 1 }
        { s.session t with phase := .writing (s.graph.globalClock + 1) writeOrder }) := by
    simp only [step, at_session, at_set]
    exact if_pos ws
  have validated := exec_validate s t s.graph (s.session t) rs valid
  have wrote := exec_write s t { s.graph with globalClock := s.graph.globalClock + 1 }
    (s.session t) (s.graph.globalClock + 1) writeOrder
  refine exec_append_some.mpr ⟨_, exec_append_some.mpr ⟨_, exec_append_some.mpr ⟨_,
    exec_append_some.mpr ⟨_, exec_cons_some.mpr ⟨_, started, exec_nil _ _⟩, validated⟩,
    exec_cons_some.mpr ⟨_, drawn, exec_nil _ _⟩⟩, wrote⟩,
    exec_cons_some.mpr ⟨_, ?_, exec_nil _ _⟩⟩
  simp only [step, at_session, at_set]
  rfl

theorem exec_commitActions_update :
    ∃ s t, exec step (init newPair)
        [.readNode () "X", .updateNode () "X" ((∅ : GoMap String Nat).insert "k" 1)] = some s ∧
      exec step s (commitActions () ["X"] ["X"]) = some t ∧ t.log.length = 1 :=
  ⟨_, _, rfl, exec_commitActions _ () rfl (by decide) (by decide) rfl, rfl⟩

end

end AsyncPractice.OptimisticConcurrency
