import AsyncPractice.DistributedColumnar

/- What Query reads back of the rows that Write has stored. The storages of a new cluster have no
columns, and the name of a table only takes part in the choice of the nodes. -/
namespace AsyncPractice.DistributedColumnar

open ColumnarStorage Finmap FirstSeen GoMap List Runs

variable {A : Type}

def Cluster.createColumns (dc : Cluster A) (names : List String) : Cluster A :=
  let create (node : StorageNode A) : StorageNode A :=
    { node with storage := names.foldl Storage.createColumn node.storage }
  { dc with coordinator := dc.coordinator.rangeUpdate create dc.nodes }

structure WriteCall (A : Type) where
  table : String
  row : Row A
  order : String → List String

/-- A Write that returns no error, with no Insert failing. -/
def writeOk (sprint : A → String) (dc : Cluster A) (call : WriteCall A) : Option (Cluster A) :=
  match dc.write sprint call.table call.row call.order fun _ => none with
  | some (after, none) => some after
  | _ => none

def rowsOf (table : String) (calls : List (WriteCall A)) : List (Row A) :=
  (calls.filter fun call => call.table = table).map WriteCall.row

section

variable {sprint : A → String} {numNodes r : Nat} {ns : List String}

/-- All nodes are active and hold the rows of their logs, which are rows written, and every row
written is in some log. -/
structure Spread (numNodes : Nat) (names : List String) (calls : List (WriteCall A))
    (dc : Cluster A) : Prop where
  nodes : dc.nodes = nodeIDs numNodes
  sorted : ConsistentHash.Sorted dc.shardMap
  owners : ∀ nid, ConsistentHash.Owns dc.shardMap nid → nid ∈ nodeIDs numNodes
  known : ∀ nid, nid ∈ nodeIDs numNodes → nid ∈ dc.coordinator
  active : ∀ nid node, dc.coordinator.lookup nid = some node →
    nid ∈ nodeIDs numNodes ∧ node.status = .active
  stored : ∀ nid node, dc.coordinator.lookup nid = some node → node.storage.Stored names
  written : ∀ nid node, dc.coordinator.lookup nid = some node → ∀ row ∈ node.storage.wal,
    ∃ call ∈ calls, call.row = row
  kept : ∀ call ∈ calls, ∃ nid node, dc.coordinator.lookup nid = some node ∧
    call.row ∈ node.storage.wal

variable {start : Cluster A}

theorem lookup_createColumns (built : Built numNodes r start) (nid) :
    (start.createColumns ns).coordinator.lookup nid =
      if nid ∈ nodeIDs numNodes then some ⟨created ns, .active⟩ else none := by
  refine (lookup_rangeUpdate _ (built.nodes ▸ nodeIDs_nodup numNodes) _ nid).trans ?_
  rw [built.nodes, built.coordinator]
  split <;> rfl

theorem spread_start (built : Built numNodes r start) :
    Spread numNodes ns [] (start.createColumns ns) := by
  have nodes : ∀ nid n, (start.createColumns ns).coordinator.lookup nid = some n →
      nid ∈ nodeIDs numNodes ∧ n = ⟨created ns, .active⟩ := by
    intro nid n hit
    rw [lookup_createColumns built] at hit
    obtain ⟨mem, eq⟩ := Option.ite_none_right_eq_some.mp hit
    exact ⟨mem, (Option.some.inj eq).symm⟩
  refine ⟨built.nodes, built.sorted, fun nid owns => ?_, fun nid mem => ?_,
    fun nid n hit => ?_, fun nid n hit => ?_, fun nid n hit row logged => ?_,
    fun c mem => ?_⟩
  · obtain ⟨pre, after, split, -⟩ := (built.owners nid).mp owns
    rw [split]
    simp
  · apply mem_of_lookup_eq_some
    rw [lookup_createColumns built, if_pos mem]
  · obtain ⟨mem, rfl⟩ := nodes nid n hit
    exact ⟨mem, rfl⟩
  · obtain ⟨-, rfl⟩ := nodes nid n hit
    exact ColumnarStorage.created_stored ns
  · obtain ⟨-, rfl⟩ := nodes nid n hit
    rw [ColumnarStorage.created_wal] at logged
    cases logged
  · cases mem

variable {dc : Cluster A} {c : WriteCall A}

theorem write_of_writeOk {after} (ok : writeOk sprint dc c = some after) :
    dc.write sprint c.table c.row c.order (fun _ => none) = some (after, none) := by
  unfold writeOk at ok
  split at ok
  next other hit =>
    rw [hit, Option.some.inj ok]
  · cases ok

variable {cs : List (WriteCall A)}

theorem Spread.accepts (inv : Spread numNodes ns cs dc) {table row nid}
    (replica : nid ∈ dc.replicas sprint table row) :
    refuses dc.coordinator (fun _ => none) nid = false := by
  obtain ⟨-, owners, -⟩ := replicas_spec inv.sorted sprint table row
  obtain ⟨n, hit⟩ := mem_iff.mp (inv.known nid (inv.owners nid (owners nid replica)))
  simp [refuses, hit, (inv.active nid n hit).2]

theorem spread_step {t} (inv : Spread numNodes ns cs dc)
    (took : writeOk sprint dc c = some t) : Spread numNodes ns (cs ++ [c]) t := by
  have ret := write_of_writeOk took
  obtain ⟨nodup, -⟩ := replicas_spec inv.sorted sprint c.table c.row
  obtain ⟨nodes, -, ring⟩ := write_frame ret
  rcases write_written nodup ret with ⟨-, -, none⟩ | ⟨errors, wrote, asked, -⟩
  · cases none
  · refine ⟨nodes.trans inv.nodes, ring ▸ inv.sorted, ring ▸ inv.owners,
      fun nid mem => ?_, fun nid n found => ?_, fun nid n found => ?_,
      fun nid n found row logged => ?_, fun x mem => ?_⟩
    · obtain ⟨old, hit⟩ := mem_iff.mp (inv.known nid mem)
      obtain ⟨n, stored, -⟩ := wrote.forward hit
      exact mem_of_lookup_eq_some stored
    · obtain ⟨old, hit, status, -⟩ := wrote.backward found
      exact ⟨(inv.active nid old hit).1, status.trans (inv.active nid old hit).2⟩
    · obtain ⟨old, hit, -, rfl | put⟩ := wrote.backward found
      · exact inv.stored nid n hit
      · exact ColumnarStorage.insert_stored (inv.stored nid old hit) put
    · obtain ⟨old, hit, -, rfl | put⟩ := wrote.backward found
      · obtain ⟨pre, mem, eq⟩ := inv.written nid n hit row logged
        exact ⟨pre, mem_append_left _ mem, eq⟩
      · rw [(ColumnarStorage.insert_valuesOf put "").1] at logged
        rcases mem_append.mp logged with before | last
        · obtain ⟨pre, mem, eq⟩ := inv.written nid old hit row before
          exact ⟨pre, mem_append_left _ mem, eq⟩
        · exact ⟨c, by simp, (mem_singleton.mp last).symm⟩
    · rcases mem_append.mp mem with pre | last
      · obtain ⟨nid, old, hit, logged⟩ := inv.kept x pre
        obtain ⟨n, stored, -, rfl | put⟩ := wrote.forward hit
        · exact ⟨nid, n, stored, logged⟩
        · refine ⟨nid, n, stored, ?_⟩
          rw [(ColumnarStorage.insert_valuesOf put "").1]
          exact mem_append_left _ logged
      · rw [mem_singleton.mp last]
        obtain ⟨nid, replica⟩ := exists_mem_of_ne_nil _ asked
        obtain ⟨n, storage, -, put, stored⟩ :=
          wrote.stored nid replica (inv.accepts replica)
        refine ⟨nid, _, stored, ?_⟩
        rw [(ColumnarStorage.insert_valuesOf put "").1]
        simp

theorem spread_run (built : Built numNodes r start)
    (run : exec (writeOk sprint) (start.createColumns ns) cs = some dc) :
    Spread numNodes ns cs dc :=
  exec_history (Spread numNodes ns) (spread_start built)
    (fun _ _ _ _ _ inv took => spread_step inv took) run

end

section

variable {sprint : A → String} {numNodes : Nat} {ns : List String}
  {cs : List (WriteCall A)} {dc : Cluster A}

/-- What Query tells rows apart by. -/
def rowKey (sprint : A → String) (row : Row A) : Option String :=
  (row.lookup "id").map (Value.text sprint)

def Cluster.logs (dc : Cluster A) (arrival : List String) : List (Row A) :=
  arrival.flatMap fun nid =>
    ((dc.coordinator.lookup nid).map fun node => node.storage.wal).getD []

theorem lookup_restrict (cols) (row : Row A) (col) :
    (restrict cols row).lookup col = if col ∈ cols then row.lookup col else none :=
  lookup_ofKeys cols row.lookup col

variable {cols : List String}

theorem rowKey_restrict (asked : "id" ∈ cols) (row) :
    rowKey sprint (restrict cols row) = rowKey sprint row := by
  rw [rowKey, lookup_restrict, if_pos asked, rowKey]

theorem Spread.all_active (inv : Spread numNodes ns cs dc) :
    dc.nodes.filter dc.isActive = dc.nodes := by
  rw [filter_eq_self]
  intro nid mem
  rw [inv.nodes] at mem
  obtain ⟨n, hit⟩ := mem_iff.mp (inv.known nid mem)
  simp [Cluster.isActive, hit, (inv.active nid n hit).2]

variable {arrival : List String} (inv : Spread numNodes ns cs dc)
include inv

theorem Spread.arrival_perm {table result}
    (ret : dc.query sprint table cols arrival = some result) : arrival.Perm dc.nodes := by
  obtain ⟨perm, -⟩ := Option.ite_none_right_eq_some.mp ret
  rwa [inv.all_active] at perm

theorem query_eq_firsts (table cols) (perm : arrival.Perm dc.nodes) :
    dc.query sprint table cols arrival = some (firsts (rowKey sprint) ∅
      (arrival.flatMap fun nid => ((dc.coordinator.lookup nid).map
        fun n => n.storage.query cols none).getD [])) := by
  rw [Cluster.query, if_pos (inv.all_active.symm ▸ perm)]
  dsimp only
  rw [foldl_keep, nil_append]
  rfl

/-- With a column for the id, Query returns the first row with each id that the logs have. -/
theorem query_with_id (gives : ∀ c ∈ cs, Gives ns c.row) (column : "id" ∈ ns) (table)
    (asked : "id" ∈ cols) (perm : arrival.Perm dc.nodes) :
    dc.query sprint table cols arrival = some ((firsts (rowKey sprint) ∅
      (dc.logs arrival)).map (restrict (cols.filter (· ∈ ns)))) := by
  have n : ∀ nid, ((dc.coordinator.lookup nid).map fun n =>
      n.storage.query cols none).getD [] =
        (((dc.coordinator.lookup nid).map fun n => n.storage.wal).getD []).map
          (restrict (cols.filter (· ∈ ns))) := by
    intro nid
    cases found : dc.coordinator.lookup nid with
    | none => rfl
    | some n =>
      refine ColumnarStorage.query_dense (inv.stored nid n found) ?_ asked column
      intro row logged
      obtain ⟨c, mem, rfl⟩ := inv.written nid n found row logged
      exact gives c mem
  have visible : "id" ∈ cols.filter (· ∈ ns) :=
    mem_filter.mpr ⟨asked, decide_eq_true column⟩
  rw [query_eq_firsts inv table cols perm]
  simp only [n, ← map_flatMap, firsts_map, rowKey_restrict visible]
  rfl

/-- Without one, Query returns nothing. -/
theorem query_without_id (column : "id" ∉ ns) (table cols) (perm : arrival.Perm dc.nodes) :
    dc.query sprint table cols arrival = some [] := by
  rw [query_eq_firsts inv table cols perm, Option.some.injEq, eq_nil_iff_forall_not_mem]
  intro row kept
  obtain ⟨mem, k, shown, -⟩ := mem_firsts kept
  obtain ⟨nid, -, ret⟩ := mem_flatMap.mp mem
  cases found : dc.coordinator.lookup nid with
  | none =>
    rw [found] at ret
    cases ret
  | some n =>
    rw [found] at ret
    replace ret : row ∈ n.storage.query cols none := ret
    rw [ColumnarStorage.query_all] at ret
    obtain ⟨i, -, rfl⟩ := mem_map.mp ret
    have absent : n.storage.valuesOf "id" = none := by
      rw [inv.stored nid n found, if_neg column]
    simp [rowKey, Storage.rowAt, lookup_ofKeys, absent] at shown

end

section

variable {sprint : A → String} {numNodes replication : Nat} {names : List String}
  {calls : List (WriteCall A)} {dc : Cluster A}

theorem restrict_restrict (cols names) (row : Row A) :
    restrict cols (restrict names row) = restrict (cols.filter (· ∈ names)) row := by
  apply ext_lookup
  intro col
  rw [lookup_restrict, lookup_restrict, lookup_restrict]
  by_cases asked : col ∈ cols
  · simp [asked]
  · simp [asked]

variable {cols : List String}

theorem restrict_congr {other} (eq : ∀ col, col ∈ cols ↔ col ∈ other) (row : Row A) :
    restrict cols row = restrict other row := by
  apply ext_lookup
  intro col
  simp only [lookup_restrict, eq]

variable {row : Row A}

theorem restrict_whole (named : ∀ col ∈ row, col ∈ cols) : restrict cols row = row := by
  apply ext_lookup
  intro col
  rw [lookup_restrict]
  split
  · rfl
  next outside =>
    exact (lookup_eq_none.mpr fun mem => outside (named col mem)).symm

variable {nid : String} {node : StorageNode A}

/-- The first rows of the log that comes first are kept. -/
theorem mem_firsts_logs (hit : dc.coordinator.lookup nid = some node)
    (x : row ∈ firsts (rowKey sprint) ∅ node.storage.wal) (rest) :
    row ∈ firsts (rowKey sprint) ∅ (dc.logs (nid :: rest)) := by
  obtain ⟨more, -, split⟩ := firsts_append (rowKey sprint) ∅ node.storage.wal (dc.logs rest)
  have logs : dc.logs (nid :: rest) = node.storage.wal ++ dc.logs rest := by
    rw [Cluster.logs, flatMap_cons, hit]
    rfl
  rw [logs, split]
  exact mem_append_left _ x

/-- Ids that are ints are told apart by their texts. -/
theorem lookup_id_of_rowKey {other} (gives : Gives names row) (gives' : Gives names other)
    (column : "id" ∈ names) (eq : rowKey sprint row = rowKey sprint other) :
    row.lookup "id" = other.lookup "id" := by
  obtain ⟨n, hit⟩ := gives "id" column
  obtain ⟨k, found'⟩ := gives' "id" column
  rw [rowKey, rowKey, hit, found'] at eq
  rw [hit, found', NumberedName.toString_int_injective (Option.some.inj eq)]

variable {tb : String}

theorem mem_rowsOf (mem : row ∈ rowsOf tb calls) : ∃ c ∈ calls, c.row = row := by
  obtain ⟨c, filtered, rfl⟩ := mem_map.mp mem
  exact ⟨c, (mem_filter.mp filtered).1, rfl⟩

/-- When every log's first rows are the table's, the first rows of all logs are the table. -/
theorem firsts_logs_perm (inv : Spread numNodes names calls dc)
    (gives : ∀ c ∈ calls, Gives names c.row) (column : "id" ∈ names)
    (distinct : ((rowsOf tb calls).map fun row => row.lookup "id").Nodup)
    (own : ∀ nid node, dc.coordinator.lookup nid = some node →
      ∀ row ∈ firsts (rowKey sprint) ∅ node.storage.wal, restrict names row ∈ rowsOf tb calls)
    {arrival} (perm : arrival.Perm dc.nodes) :
    ((firsts (rowKey sprint) ∅ (dc.logs arrival)).map (restrict names)).Perm (rowsOf tb calls) := by
  have inTable : ∀ row ∈ firsts (rowKey sprint) ∅ (dc.logs arrival),
      restrict names row ∈ rowsOf tb calls := by
    intro row kept
    obtain ⟨nid, -, x⟩ := mem_firsts_flatMap kept
    cases hit : dc.coordinator.lookup nid with
    | none =>
      rw [hit] at x
      cases x
    | some node =>
      rw [hit] at x
      exact own nid node hit row x
  have nodup : ((firsts (rowKey sprint) ∅ (dc.logs arrival)).map (restrict names)).Nodup := by
    apply List.Pairwise.map _ _ (firsts_pairwise (rowKey sprint) ∅ (dc.logs arrival))
    intro row other ne eq
    apply ne
    rw [← rowKey_restrict column row, eq, rowKey_restrict column]
  apply (perm_ext_iff_of_nodup nodup distinct.of_map).mpr
  intro row
  constructor
  · intro mem
    obtain ⟨kept, x, rfl⟩ := mem_map.mp mem
    exact inTable kept x
  · intro mem
    -- The row is in some log, so a row with its id is kept, and the table has one such row.
    obtain ⟨c, wrote, rfl⟩ := mem_rowsOf mem
    obtain ⟨nid, node, hit, logged⟩ := inv.kept c wrote
    have arrives : nid ∈ arrival := by
      rw [perm.mem_iff, inv.nodes]
      exact (inv.active nid node hit).1
    have inLogs : c.row ∈ dc.logs arrival :=
      mem_flatMap.mpr ⟨nid, arrives, by rw [hit]; exact logged⟩
    obtain ⟨n, id⟩ := gives c wrote "id" column
    have k : rowKey sprint c.row = some (Value.text sprint (.int n)) := by
      rw [rowKey, id]
      rfl
    obtain ⟨other, kept, shown⟩ := exists_firsts inLogs k (Finset.notMem_empty _)
    obtain ⟨call', written', eq⟩ := mem_rowsOf (inTable other kept)
    have ids : (restrict names other).lookup "id" = c.row.lookup "id" := by
      apply lookup_id_of_rowKey (eq ▸ gives call' written') (gives c wrote) column
      rw [rowKey_restrict column, shown, k]
    have equal := inj_on_of_nodup_map distinct (inTable other kept) mem ids
    exact mem_map.mpr ⟨other, kept, equal⟩

/-- A log that comes first shows its first rows, so they have to be the table's. -/
theorem own_of_reads_back (inv : Spread numNodes names calls dc)
    (gives : ∀ call ∈ calls, Gives names call.row) (column : "id" ∈ names)
    (readBack : ∀ cols, "id" ∈ cols → ∀ arrival result,
      dc.query sprint tb cols arrival = some result →
        result.Perm ((rowsOf tb calls).map (restrict cols)))
    (hit : dc.coordinator.lookup nid = some node)
    (x : row ∈ firsts (rowKey sprint) ∅ node.storage.wal) :
    restrict names row ∈ rowsOf tb calls := by
  have arrives : (nid :: dc.nodes.erase nid).Perm dc.nodes := by
    apply (perm_cons_erase _).symm
    rw [inv.nodes]
    exact (inv.active nid node hit).1
  -- All cols there are, and all that a row of the table names.
  let cols := names ++ (rowsOf tb calls).flatMap fun row => row.keys.toList
  have asked : "id" ∈ cols := mem_append_left _ column
  have perm := readBack cols asked _ _ (query_with_id inv gives column tb asked arrives)
  have whole : (rowsOf tb calls).map (restrict cols) = rowsOf tb calls := by
    rw [map_congr_left (g := id), map_id]
    intro row mem
    apply restrict_whole
    intro col named
    apply mem_append_right
    exact mem_flatMap.mpr ⟨row, mem, Finset.mem_toList.mpr (mem_keys.mpr named)⟩
  have cut : restrict (cols.filter (· ∈ names)) row = restrict names row := by
    apply restrict_congr
    intro col
    simp only [mem_filter, decide_eq_true_eq, and_iff_right_iff_imp]
    exact fun mem => mem_append_left _ mem
  have kept := mem_firsts_logs hit x (dc.nodes.erase nid)
  rw [whole] at perm
  rw [← cut]
  exact perm.mem_iff.mp (mem_map_of_mem kept)

theorem own_of_one_table (inv : Spread numNodes names calls dc)
    (one : ∀ c ∈ calls, c.table = tb ∧ ∀ col ∈ c.row, col ∈ names)
    (hit : dc.coordinator.lookup nid = some node)
    (x : row ∈ firsts (rowKey sprint) ∅ node.storage.wal) :
    restrict names row ∈ rowsOf tb calls := by
  obtain ⟨c, mem, rfl⟩ := inv.written nid node hit row (mem_firsts x).1
  rw [restrict_whole (one c mem).2]
  exact mem_map_of_mem (mem_filter.mpr ⟨mem, decide_eq_true (one c mem).1⟩)

end

section

variable {sprint : A → String} {numNodes r : Nat} {ns : List String}
  {cs : List (WriteCall A)} {dc : Cluster A} {c : WriteCall A}

theorem writeOk_total (inv : Spread numNodes ns cs dc)
    (numeric : NumericNodes ns dc.coordinator) (asked : dc.replicas sprint c.table c.row ≠ [])
    (ints : ColumnarStorage.IntsAt ns c.row) (ranges : ∀ nid, Ranges (c.order nid) c.row) :
    ∃ after, writeOk sprint dc c = some after ∧ NumericNodes ns after.coordinator := by
  obtain ⟨nodup, -⟩ := replicas_spec inv.sorted sprint c.table c.row
  obtain ⟨after, err, ret, held⟩ :=
    write_total ints ranges numeric sprint c.table fun _ => none
  rcases write_written nodup ret with ⟨empty, -⟩ | ⟨errors, wrote, -, verdict⟩
  · exact absurd empty asked
  · have none : errors.length = 0 := by
      refine wrote.errors.trans (countP_eq_zero.mpr fun nid replica => ?_)
      rw [inv.accepts replica]
      exact Bool.false_ne_true
    rw [none, if_neg (Nat.not_lt_zero _)] at verdict
    subst verdict
    refine ⟨after, ?_, held⟩
    rw [writeOk, ret]

/-- A cluster that has only been written to. -/
structure Healthy (numNodes : Nat) (names : List String) (start dc : Cluster A) : Prop where
  numeric : NumericNodes names dc.coordinator
  spread : ∃ calls, Spread numNodes names calls dc
  replication : dc.replication = start.replication
  shardMap : dc.shardMap = start.shardMap

variable {start : Cluster A}

theorem healthy_start (built : Built numNodes r start) :
    Healthy numNodes ns start (start.createColumns ns) := by
  refine ⟨fun nid n hit => ?_, ⟨[], spread_start built⟩, rfl, rfl⟩
  rw [lookup_createColumns built] at hit
  obtain ⟨-, eq⟩ := Option.ite_none_right_eq_some.mp hit
  rw [← Option.some.inj eq]
  exact ColumnarStorage.created_numeric ns

theorem healthy_step (healthy : Healthy numNodes ns start dc)
    (asked : start.replicas sprint c.table c.row ≠ []) (ints : ColumnarStorage.IntsAt ns c.row)
    (ranges : ∀ nid, Ranges (c.order nid) c.row) :
    ∃ after, writeOk sprint dc c = some after ∧ Healthy numNodes ns start after := by
  obtain ⟨numeric, ⟨cs, inv⟩, r, shardMap⟩ := healthy
  have eq : dc.replicas sprint c.table c.row = start.replicas sprint c.table c.row := by
    rw [Cluster.replicas, r, shardMap]
    rfl
  obtain ⟨after, ok, held⟩ := writeOk_total inv numeric (eq ▸ asked) ints ranges
  obtain ⟨-, sameReplication, sameRing⟩ := write_frame (write_of_writeOk ok)
  exact ⟨after, ok, held, ⟨_, spread_step inv ok⟩, sameReplication.trans r, sameRing.trans shardMap⟩

theorem writes_total (sprint : A → String) (ns) (built : Built numNodes r start)
    (asked : ∀ c ∈ cs, start.replicas sprint c.table c.row ≠ [])
    (ints : ∀ c ∈ cs, ColumnarStorage.IntsAt ns c.row)
    (ranges : ∀ c ∈ cs, ∀ nid, Ranges (c.order nid) c.row) :
    ∃ dc, exec (writeOk sprint) (start.createColumns ns) cs = some dc := by
  obtain ⟨dc, run, -⟩ := exec_total (Healthy numNodes ns start) (fun _ c mem healthy =>
      healthy_step healthy (asked c mem) (ints c mem) (ranges c mem))
    (healthy_start built)
  exact ⟨dc, run⟩

end

section

variable {start : Cluster A}

theorem replicas_of_one {orders} (new : newDistributedColumnar 1 1 orders = some start)
    (sprint : A → String) (table row) : start.replicas sprint table row ≠ [] := by
  have one := replicas_length (built_of_new new) keepsPoint_one sprint table row
  exact ne_nil_of_length_pos (by omega)

theorem createColumns_nil {numNodes replication} (built : Built numNodes replication start) :
    start.createColumns [] = start := by
  have eq : (start.createColumns []).coordinator = start.coordinator := by
    apply ext_lookup
    intro nid
    rw [lookup_createColumns built, built.coordinator]
    rfl
  exact congrArg (fun coordinator => { start with coordinator }) eq

open ColumnarStorage (intRow mem_intRow)

def twoWrites : List (WriteCall Empty) :=
  [⟨"t", intRow [("id", 1), ("v", 10)], fun _ => ["v", "id"]⟩,
    ⟨"t", intRow [("id", 2), ("v", 10)], fun _ => ["id", "v"]⟩]

theorem twoWrites_gives : ∀ c ∈ twoWrites, Gives ["id", "v"] c.row := by
  intro c mem col column
  rcases mem_pair.mp mem with rfl | rfl <;>
    rcases mem_pair.mp column with rfl | rfl <;> exact ⟨_, rfl⟩

end

end AsyncPractice.DistributedColumnar
