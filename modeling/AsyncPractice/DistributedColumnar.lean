import AsyncPractice.ColumnarStorage
import AsyncPractice.ConsistentHash
import AsyncPractice.FirstSeen
import AsyncPractice.NumberedName

/- NewDistributedColumnar, Write and Query of the DistributedColumnar in
solution23_columnar_storage.go. -/
namespace AsyncPractice.DistributedColumnar

section

open Option List ColumnarStorage ConsistentHash GoMap Runs

open FirstSeen (keep)

inductive Status
  | active
  | failed
  deriving DecidableEq

structure StorageNode (A : Type) where
  storage : Storage A
  status : Status

/-- The slice of nodes is given by their IDs. The coordinator's map has the nodes themselves. -/
structure Cluster (A : Type) where
  nodes : List String
  coordinator : GoMap String (StorageNode A)
  replication : Nat
  shardMap : Ring

def nodeIDs (numNodes : Nat) : List String :=
  (List.range numNodes).map fun i => "node-" ++ toString i

theorem nodeIDs_nodup (n) : (nodeIDs n).Nodup := by
  apply nodup_range.map
  intro i j eq
  have digits := congrArg String.toList eq
  rw [String.toList_append, String.toList_append] at digits
  exact NumberedName.toString_injective (String.toList_inj.mp (append_cancel_left digits))

variable {A : Type}

/-- `orders` are the orders in which the calls of AddNode range over the ring. -/
def newDistributedColumnar (numNodes replication : Nat) (orders : List (List UInt32)) :
    Option (Cluster A) :=
  let nodes := nodeIDs numNodes
  if orders.length = numNodes then
    (exec (addNode hash) (newConsistentHash 100) (nodes.zipWith AddCall.mk orders)).map
      fun shardMap =>
        { nodes
          coordinator := ofKeys nodes fun _ => some ⟨newColumnarStorage, .active⟩
          replication
          shardMap }
  else none

/-- What the verb %v prints. -/
def Value.text (sprint : A → String) : Value A → String
  | .nil => "<nil>"
  | .int n => toString n
  | .other a => sprint a

/-- One goroutine of Write. The nodes differ, so the goroutines do not meet. `fault` is the error
of a node whose Insert fails. -/
def writeNode (row : Row A) (order : String → List String) (fault : String → Option String)
    (done : GoMap String (StorageNode A) × List String) (nid : String) :
    Option (GoMap String (StorageNode A) × List String) :=
  match done.1.lookup nid with
  | none => some (done.1, done.2 ++ ["node " ++ nid ++ " not available"])
  | some node =>
    if node.status ≠ .active then
      some (done.1, done.2 ++ ["node " ++ nid ++ " not available"])
    else
      match fault nid with
      | some err => some (done.1, done.2 ++ [err])
      | none =>
        (ColumnarStorage.insert node.storage ⟨row, order nid⟩).map fun storage =>
          (done.1.insert nid { node with storage }, done.2)

def Cluster.replicas (dc : Cluster A) (sprint : A → String) (table : String) (row : Row A) :
    List String :=
  let rowKey := table ++ "-" ++ Value.text sprint ((row.lookup "id").getD .nil)
  getNodes hash dc.shardMap rowKey dc.replication

def Cluster.write (dc : Cluster A) (sprint : A → String) (table : String) (row : Row A)
    (order : String → List String) (fault : String → Option String) :
    Option (Cluster A × Option String) :=
  let nodes := dc.replicas sprint table row
  if nodes.length = 0 then some (dc, some "no nodes available")
  else
    (exec (writeNode row order fault) (dc.coordinator, []) nodes).map fun done =>
      ({ dc with coordinator := done.1 },
        if done.2.length > dc.replication / 2 then some "failed to achieve write quorum" else none)

def Cluster.isActive (dc : Cluster A) (nid : String) : Bool :=
  (dc.coordinator.lookup nid).any fun node => node.status = .active

/-- `arrival` is the order in which the results of the active nodes come in. -/
def Cluster.query (dc : Cluster A) (sprint : A → String) (_table : String)
    (columns : List String) (arrival : List String) : Option (List (Row A)) :=
  if arrival.Perm (dc.nodes.filter dc.isActive) then
    let results := arrival.flatMap fun nid =>
      ((dc.coordinator.lookup nid).map fun node => node.storage.query columns none).getD []
    some (results.foldl (keep fun row => (row.lookup "id").map (Value.text sprint)) ([], ∅)).1
  else none

def Cluster.onNode (dc : Cluster A) (nid : String) (f : StorageNode A → StorageNode A) :
    Cluster A :=
  { dc with coordinator := dc.coordinator.modify f nid }

def Cluster.createColumn (dc : Cluster A) (nid name : String) : Cluster A :=
  dc.onNode nid fun node => { node with storage := node.storage.createColumn name }

/-- What healthCheck does to a node without a recent heartbeat. -/
def Cluster.markFailed (dc : Cluster A) (nid : String) : Cluster A :=
  dc.onNode nid fun node => { node with status := .failed }

variable {n k : Nat} {orders : List (List UInt32)} {dc : Cluster A}

/-- A new cluster: the storages are empty, and the ring has been given every node. -/
structure Built (numNodes replication : Nat) (dc : Cluster A) : Prop where
  nodes : dc.nodes = nodeIDs numNodes
  coordinator : ∀ nid, dc.coordinator.lookup nid =
    if nid ∈ nodeIDs numNodes then some ⟨newColumnarStorage, .active⟩ else none
  replication : dc.replication = replication
  sorted : ConsistentHash.Sorted dc.shardMap
  owners : ∀ nid, ConsistentHash.Owns dc.shardMap nid ↔
    ConsistentHash.KeepsPoint hash 100 (nodeIDs numNodes) nid

theorem built_of_new (new : newDistributedColumnar n k orders = some dc) : Built n k dc := by
  obtain ⟨length, new⟩ := ite_none_right_eq_some.mp new
  obtain ⟨shardMap, ring, rfl⟩ := map_eq_some_iff.mp new
  have added : ((nodeIDs n).zipWith AddCall.mk orders).map (·.nodeID) = nodeIDs n := by
    apply ext_getElem
    · simp [length, nodeIDs]
    · simp
  refine ⟨rfl, fun nid => lookup_ofKeys _ _ nid, rfl, ConsistentHash.reached_sorted ring, ?_⟩
  intro nid
  rw [ConsistentHash.owns_iff_keepsPoint ring, added]

/-- There is an order for every range loop of the constructor. -/
theorem new_exists (n k) :
    ∃ orders, ∃ dc : Cluster A, newDistributedColumnar n k orders = some dc := by
  have rings : ∀ (ids : List String) (ch : Ring), ∃ orders, orders.length = ids.length ∧
      ∃ ring, exec (addNode hash) ch (ids.zipWith AddCall.mk orders) = some ring := by
    intro ids
    induction ids with
    | nil => exact fun ch => ⟨[], rfl, ch, rfl⟩
    | cons id ids ih =>
      intro ch
      obtain ⟨order, ranges⟩ := exists_ranges (ConsistentHash.insertPoints hash ch id).ring
      obtain ⟨orders, length, ring, run⟩ :=
        ih (ConsistentHash.updateSortedKeys (ConsistentHash.insertPoints hash ch id) order)
      exact ⟨order :: orders, congrArg (· + 1) length, ring,
        exec_cons_some.mpr ⟨_, if_pos ranges, run⟩⟩
  obtain ⟨orders, length, ring, run⟩ := rings (nodeIDs n) (newConsistentHash 100)
  have cnt : orders.length = n := by simpa [nodeIDs] using length
  refine ⟨orders, isSome_iff_exists.mp ?_⟩
  rw [newDistributedColumnar, if_pos cnt, run]
  rfl

theorem replicas_spec (sorted : ConsistentHash.Sorted dc.shardMap) (sprint : A → String)
    (table row) :
    (dc.replicas sprint table row).Nodup ∧
      (∀ nid ∈ dc.replicas sprint table row, ConsistentHash.Owns dc.shardMap nid) ∧
      (dc.replicas sprint table row).length ≤ dc.replication ∧
      ((dc.replicas sprint table row).length < dc.replication →
        ∀ nid, ConsistentHash.Owns dc.shardMap nid → nid ∈ dc.replicas sprint table row) :=
  ConsistentHash.getNodes_spec hash sorted _ _

/-- Write turns to different nodes of the coordinator, at most as many as the replication asks
for. -/
theorem Built.replicas (built : Built n k dc) (sprint : A → String) (table row) :
    (dc.replicas sprint table row).Nodup ∧ (∀ nid ∈ dc.replicas sprint table row, nid ∈ nodeIDs n) ∧
      (dc.replicas sprint table row).length ≤ k := by
  obtain ⟨nodup, owners, limit, -⟩ := replicas_spec built.sorted sprint table row
  refine ⟨nodup, fun nid mem => ?_, limit.trans_eq built.replication⟩
  obtain ⟨pre, after, split, -⟩ := (built.owners nid).mp (owners nid mem)
  rw [split]
  simp

variable {row : Row A} {order : String → List String} {fault : String → Option String}
  {pre : GoMap String (StorageNode A)}

/-- The node does not store the row: it is not there, not active, or its Insert fails. -/
def refuses (nodes : GoMap String (StorageNode A)) (fault : String → Option String)
    (nid : String) : Bool :=
  ((nodes.lookup nid).all fun node => node.status ≠ .active) || (fault nid).isSome

variable {nid : String} {done t : GoMap String (StorageNode A) × List String}

theorem writeNode_cases (took : writeNode row order fault done nid = some t) :
    (refuses done.1 fault nid = true ∧ t.1 = done.1 ∧ t.2.length = done.2.length + 1) ∨
      (refuses done.1 fault nid = false ∧ ∃ n storage, done.1.lookup nid = some n ∧
        n.status = .active ∧
        ColumnarStorage.insert n.storage ⟨row, order nid⟩ = some storage ∧
        t = (done.1.insert nid { n with storage }, done.2)) := by
  unfold writeNode at took
  unfold refuses
  cases found : done.1.lookup nid with
  | none =>
    rw [found] at took
    cases took
    exact .inl ⟨rfl, rfl, by simp⟩
  | some n =>
    rw [found] at took
    dsimp only at took
    by_cases active : n.status = .active
    · rw [if_neg (not_not.mpr active)] at took
      cases failed : fault nid with
      | some err =>
        rw [failed] at took
        cases took
        exact .inl ⟨by simp, rfl, by simp⟩
      | none =>
        rw [failed] at took
        obtain ⟨storage, put, rfl⟩ := map_eq_some_iff.mp took
        exact .inr ⟨by simp [active], n, storage, rfl, active, put, rfl⟩
    · rw [if_pos active] at took
      cases took
      exact .inl ⟨by simp [active], rfl, by simp⟩

structure Written (before : GoMap String (StorageNode A)) (row : Row A)
    (order : String → List String) (fault : String → Option String) (nodes : List String)
    (after : GoMap String (StorageNode A) × List String) : Prop where
  errors : after.2.length = nodes.countP (refuses before fault)
  other : ∀ nid, nid ∉ nodes ∨ refuses before fault nid = true →
    after.1.lookup nid = before.lookup nid
  stored : ∀ nid ∈ nodes, refuses before fault nid = false →
    ∃ node storage, before.lookup nid = some node ∧
      ColumnarStorage.insert node.storage ⟨row, order nid⟩ = some storage ∧
      after.1.lookup nid = some { node with storage }

theorem refuses_congr {ns x : GoMap String (StorageNode A)} (eq : ns.lookup nid = x.lookup nid) :
    refuses ns fault nid = refuses x fault nid := by
  unfold refuses
  rw [eq]

variable {ns : List String} {after : GoMap String (StorageNode A) × List String}

theorem written_step (wrote : Written pre row order fault ns done) (new : nid ∉ ns)
    (took : writeNode row order fault done nid = some t) :
    Written pre row order fault (ns ++ [nid]) t := by
  have untouched : done.1.lookup nid = pre.lookup nid := wrote.other nid (.inl new)
  have eq : refuses done.1 fault nid = refuses pre fault nid := refuses_congr untouched
  rcases writeNode_cases took with ⟨refused, nodesSame, more⟩ | ⟨acc, n, storage, hit, -, put, rfl⟩
  · rw [eq] at refused
    refine ⟨?_, fun id ne => ?_, fun id mem acc => ?_⟩
    · rw [more, wrote.errors]
      simp [refused]
    · rw [nodesSame]
      refine wrote.other id (ne.imp_left fun absent mem => ?_)
      exact absent (mem_append_left _ mem)
    · rw [nodesSame]
      rcases mem_append.mp mem with old | last
      · exact wrote.stored id old acc
      · rw [mem_singleton.mp last, refused] at acc
        cases acc
  · rw [eq] at acc
    refine ⟨?_, fun id ne => ?_, fun id mem taken => ?_⟩
    · rw [wrote.errors]
      simp [acc]
    · have different : id ≠ nid := by
        rintro rfl
        rcases ne with absent | refused
        · exact absent (by simp)
        · rw [refused] at acc
          cases acc
      rw [lookup_insert_ite, if_neg different]
      refine wrote.other id (ne.imp_left fun absent mem => ?_)
      exact absent (mem_append_left _ mem)
    · by_cases last : id = nid
      · subst last
        rw [lookup_insert_ite, if_pos rfl]
        exact ⟨n, storage, untouched ▸ hit, put, rfl⟩
      · rw [lookup_insert_ite, if_neg last]
        refine wrote.stored id ((mem_append.mp mem).resolve_right fun single => ?_) taken
        exact last (mem_singleton.mp single)

theorem written_of_run (nodup : ns.Nodup)
    (run : exec (writeNode row order fault) (pre, []) ns = some after) :
    Written pre row order fault ns after := by
  refine exec_history (fun ns after => ns.Nodup →
    Written pre row order fault ns after) ?_ ?_ run nodup
  · exact fun _ => ⟨rfl, fun _ _ => rfl, fun _ mem => by cases mem⟩
  · intro ns done nid t _ wrote took nodup
    obtain ⟨earlier, -, ne⟩ := nodup_append.mp nodup
    refine written_step (wrote earlier) (fun mem => ?_) took
    exact ne nid mem nid (mem_singleton_self nid) rfl

theorem Written.forward (wrote : Written pre row order fault ns after) {old}
    (hit : pre.lookup nid = some old) :
    ∃ n, after.1.lookup nid = some n ∧ n.status = old.status ∧ (n = old ∨
        ColumnarStorage.insert old.storage ⟨row, order nid⟩ = some n.storage) := by
  by_cases taken : nid ∈ ns ∧ refuses pre fault nid = false
  · obtain ⟨n, storage, eq, put, stored⟩ := wrote.stored nid taken.1 taken.2
    obtain rfl := some.inj (hit.symm.trans eq)
    exact ⟨_, stored, rfl, .inr put⟩
  · have ne : nid ∉ ns ∨ refuses pre fault nid = true := by
      rw [not_and_or, Bool.not_eq_false] at taken
      exact taken
    exact ⟨old, (wrote.other nid ne).trans hit, rfl, .inl rfl⟩

theorem Written.backward (wrote : Written pre row order fault ns after) {n}
    (hit : after.1.lookup nid = some n) :
    ∃ old, pre.lookup nid = some old ∧ n.status = old.status ∧ (n = old ∨
        ColumnarStorage.insert old.storage ⟨row, order nid⟩ = some n.storage) := by
  cases present : pre.lookup nid with
  | none =>
    have refused : refuses pre fault nid = true := by
      rw [refuses, present]
      rfl
    have eq := wrote.other nid (.inr refused)
    rw [hit, present] at eq
    cases eq
  | some old =>
    obtain ⟨x, stored, kept⟩ := wrote.forward present
    obtain rfl := some.inj (hit.symm.trans stored)
    exact ⟨old, rfl, kept⟩

theorem write_frame {sprint : A → String} {tb : String} {dc after : Cluster A}
    {err : Option String} (ret : dc.write sprint tb row order fault = some (after, err)) :
    after.nodes = dc.nodes ∧ after.replication = dc.replication ∧ after.shardMap = dc.shardMap := by
  unfold Cluster.write at ret
  dsimp only at ret
  split at ret
  · rw [← (Prod.mk.inj (some.inj ret)).1]
    exact ⟨rfl, rfl, rfl⟩
  · obtain ⟨done, -, eq⟩ := map_eq_some_iff.mp ret
    rw [← (Prod.mk.inj eq).1]
    exact ⟨rfl, rfl, rfl⟩

end

/- How many nodes have a row when Write returns no error. Write counts errors against half of the
replication, whatever the number of nodes it has turned to. -/
open Option List Runs

open ColumnarStorage (Row)

variable {A : Type}

inductive Event (A : Type)
  | write (table : String) (row : Row A) (order : String → List String)
      (fault : String → Option String)
  | createColumn (nid name : String)
  | markFailed (nid : String)

def step (sprint : A → String) (dc : Cluster A) : Event A → Option (Cluster A)
  | .write table row order fault => (dc.write sprint table row order fault).map Prod.fst
  | .createColumn nid name => some (dc.createColumn nid name)
  | .markFailed nid => some (dc.markFailed nid)

def Inserted (before after : Cluster A) (row : Row A) (nid : String) : Prop :=
  ∃ old new, before.coordinator.lookup nid = some old ∧ after.coordinator.lookup nid = some new ∧
    new.storage.wal = old.storage.wal ++ [row]

variable {sprint : A → String} {tb : String} {row : Row A} {order : String → List String}
  {fault : String → Option String} {dc after : Cluster A} {err : Option String}

theorem write_written (nodup : (dc.replicas sprint tb row).Nodup)
    (ret : dc.write sprint tb row order fault = some (after, err)) :
    (dc.replicas sprint tb row = [] ∧ after = dc ∧ err = some "no nodes available") ∨
      ∃ errors : List String, Written dc.coordinator row order fault
          (dc.replicas sprint tb row) (after.coordinator, errors) ∧
        dc.replicas sprint tb row ≠ [] ∧
        err = if errors.length > dc.replication / 2 then some "failed to achieve write quorum"
          else none := by
  unfold Cluster.write at ret
  dsimp only at ret
  split at ret
  next none =>
    obtain ⟨rfl, rfl⟩ := Prod.mk.inj (some.inj ret)
    exact .inl ⟨length_eq_zero_iff.mp none, rfl, rfl⟩
  next some =>
    obtain ⟨done, run, eq⟩ := map_eq_some_iff.mp ret
    obtain ⟨rfl, rfl⟩ := Prod.mk.inj eq
    exact .inr ⟨done.2, written_of_run nodup run,
      fun none => some (length_eq_zero_iff.mpr none), rfl⟩

variable {errors names : List String}

theorem inserted_iff (wrote : Written dc.coordinator row order fault (dc.replicas sprint tb row)
      (after.coordinator, errors)) (nid) :
    Inserted dc after row nid ↔
      nid ∈ (dc.replicas sprint tb row).filter fun nid => !refuses dc.coordinator fault nid := by
  rw [mem_filter, Bool.not_eq_true']
  constructor
  · rintro ⟨old, new, hit, stored, wal⟩
    by_contra apart
    have eq := wrote.other nid (by
      by_cases mem : nid ∈ dc.replicas sprint tb row
      · exact .inr (by simpa [mem] using apart)
      · exact .inl mem)
    rw [stored, hit] at eq
    cases eq
    have length := congrArg length wal
    simp at length
  · rintro ⟨mem, acc⟩
    obtain ⟨n, storage, hit, put, stored⟩ := wrote.stored nid mem acc
    exact ⟨n, _, hit, stored, (ColumnarStorage.insert_valuesOf put "").1⟩

theorem accepted_length (wrote : Written dc.coordinator row order fault (dc.replicas sprint tb row)
      (after.coordinator, errors)) :
    errors.length + ((dc.replicas sprint tb row).filter
      fun nid => !refuses dc.coordinator fault nid).length =
        (dc.replicas sprint tb row).length := by
  have errors := wrote.errors
  rw [errors, ← countP_eq_length_filter]
  have split := length_eq_countP_add_countP (refuses dc.coordinator fault)
    (l := dc.replicas sprint tb row)
  simpa using split.symm

/-- No Insert on a node panics. -/
def NumericNodes (names : List String) (nodes : GoMap String (StorageNode A)) : Prop :=
  ∀ nid node, nodes.lookup nid = some node → node.storage.Numeric names

theorem writeNode_total (ints : ColumnarStorage.IntsAt names row)
    (ranges : ∀ nid, GoMap.Ranges (order nid) row) {done} (numeric : NumericNodes names done.1)
    (nid) : ∃ next, writeNode row order fault done nid = some next ∧ NumericNodes names next.1 := by
  unfold writeNode
  cases found : done.1.lookup nid with
  | none => exact ⟨_, rfl, numeric⟩
  | some n =>
    dsimp only
    split
    · exact ⟨_, rfl, numeric⟩
    · cases fault nid with
      | some err => exact ⟨_, rfl, numeric⟩
      | none =>
        have stored : ∃ storage, ColumnarStorage.insert n.storage ⟨row, order nid⟩ =
            some storage ∧ storage.Numeric names :=
          ColumnarStorage.insert_total (numeric nid n found) ints (ranges nid)
        obtain ⟨storage, put, held⟩ := stored
        refine ⟨_, by rw [put]; rfl, ?_⟩
        intro id stored hit
        rcases GoMap.lookup_insert_cases hit with ⟨rfl, rfl⟩ | ⟨-, pre⟩
        · exact held
        · exact numeric id stored pre

theorem write_total (ints : ColumnarStorage.IntsAt names row)
    (ranges : ∀ nid, GoMap.Ranges (order nid) row) {dc : Cluster A}
    (numeric : NumericNodes names dc.coordinator) (sprint : A → String) (tb fault) :
    ∃ after err, dc.write sprint tb row order fault = some (after, err) ∧
      NumericNodes names after.coordinator := by
  have goes : ∃ done, exec (writeNode row order fault) (dc.coordinator, [])
      (dc.replicas sprint tb row) = some done ∧ NumericNodes names done.1 :=
    exec_total (fun done : GoMap String (StorageNode A) × List String =>
        NumericNodes names done.1)
      (fun _ nid _ numeric => writeNode_total ints ranges numeric nid) numeric
  obtain ⟨done, run, held⟩ := goes
  unfold Cluster.write
  dsimp only
  split
  · exact ⟨dc, _, rfl, numeric⟩
  · exact ⟨_, _, by rw [run]; rfl, held⟩

variable {numNodes k : Nat} {start : Cluster A}

theorem replicas_reached {dc es} (run : exec (step sprint) start es = some dc) :
    dc.replication = start.replication ∧
      ∀ tb row, dc.replicas sprint tb row = start.replicas sprint tb row := by
  have frame : dc.replication = start.replication ∧ dc.shardMap = start.shardMap := by
    refine exec_invariant (fun dc => dc.replication = start.replication ∧
      dc.shardMap = start.shardMap) ⟨rfl, rfl⟩ ?_ run
    intro dc e t eq took
    cases e with
    | write tb row order fault =>
      obtain ⟨⟨after, err⟩, returned, rfl⟩ := map_eq_some_iff.mp took
      obtain ⟨-, sameReplication, sameRing⟩ := write_frame returned
      exact ⟨sameReplication.trans eq.1, sameRing.trans eq.2⟩
    | createColumn nid name | markFailed nid => exact some.inj took ▸ eq
  refine ⟨frame.1, fun tb row => ?_⟩
  rw [Cluster.replicas, frame.1, frame.2]
  rfl

theorem countP_take {l : List String} (nodup : l.Nodup) {n : Nat} (room : n ≤ l.length) :
    l.countP (fun nid => decide (nid ∈ l.take n)) = n := by
  have parts : l.countP (fun nid => decide (nid ∈ l.take n)) =
      (l.take n).countP (fun nid => decide (nid ∈ l.take n)) +
        (l.drop n).countP (fun nid => decide (nid ∈ l.take n)) := by
    rw [← countP_append, take_append_drop]
  have front : (l.take n).countP (fun nid => decide (nid ∈ l.take n)) = n := by
    rw [countP_eq_length.mpr fun nid mem => decide_eq_true mem, length_take_of_le room]
  have back : (l.drop n).countP (fun nid => decide (nid ∈ l.take n)) = 0 := by
    rw [countP_eq_zero]
    intro nid late
    rw [decide_eq_true_eq]
    exact fun early => disjoint_take_drop nodup (Nat.le_refl n) early late
  rw [parts, front, back, Nat.add_zero]

/-- In a new cluster a Write can meet any number of failing replicas. -/
theorem exists_failing_write (built : Built numNodes k start) (sprint : A → String) (tb row)
    (asked : start.replicas sprint tb row ≠ []) {count : Nat}
    (room : count ≤ (start.replicas sprint tb row).length) :
    ∃ order fault after, ∃ errors : List String, start.write sprint tb row order fault =
        some (after, if count > start.replication / 2 then some "failed to achieve write quorum"
          else none) ∧
      Written start.coordinator row order fault (start.replicas sprint tb row)
        (after.coordinator, errors) ∧ errors.length = count := by
  obtain ⟨nodup, known, -⟩ := built.replicas sprint tb row
  let fault : String → Option String := fun nid =>
    if nid ∈ (start.replicas sprint tb row).take count then some "insert failed" else none
  obtain ⟨order, ranges⟩ := GoMap.exists_ranges row
  have numeric : NumericNodes [] start.coordinator := by
    intro nid n found
    rw [built.coordinator] at found
    obtain ⟨-, rfl⟩ := guard_some.mp found
    intro colName col hit
    cases hit
  obtain ⟨after, err, ret, -⟩ := write_total
    (fun _ column => absurd column not_mem_nil) (fun _ => ranges) numeric sprint tb fault
  rcases write_written nodup ret with ⟨empty, -⟩ | ⟨errors, wrote, -, verdict⟩
  · exact absurd empty asked
  · have failed : errors.length = count := by
      refine wrote.errors.trans ((countP_congr ?_).trans (countP_take nodup room))
      intro nid mem
      have active := built.coordinator nid
      rw [if_pos (known nid mem)] at active
      simp [refuses, active, fault]
    rw [failed] at verdict
    exact ⟨_, fault, after, errors, verdict ▸ ret, wrote, failed⟩

theorem replicas_length {start k} (built : Built k k start)
    (keeps : ∀ nid ∈ nodeIDs k, ConsistentHash.KeepsPoint ConsistentHash.hash 100 (nodeIDs k) nid)
    (sprint : A → String) (tb row) : (start.replicas sprint tb row).length = k := by
  obtain ⟨-, -, limit, complete⟩ := replicas_spec built.sorted sprint tb row
  rw [built.replication] at limit complete
  by_contra short
  have all : ∀ nid ∈ nodeIDs k, nid ∈ start.replicas sprint tb row :=
    fun nid mem => complete (by omega) nid ((built.owners nid).mpr (keeps nid mem))
  have many := ((nodeIDs_nodup k).subperm all).length_le
  rw [nodeIDs, length_map, length_range] at many
  omega

theorem keepsPoint_one : ∀ nid ∈ nodeIDs 1,
    ConsistentHash.KeepsPoint ConsistentHash.hash 100 (nodeIDs 1) nid := by
  have names : nodeIDs 1 = ["node-0"] := by decide
  intro nid mem
  rw [mem_singleton.mp mem]
  exact ⟨[], [], rfl, ConsistentHash.hash "node-0-0", by decide, by simp⟩

end AsyncPractice.DistributedColumnar
