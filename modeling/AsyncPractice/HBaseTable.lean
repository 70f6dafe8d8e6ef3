import AsyncPractice.Checksum
import AsyncPractice.LastWrite
import AsyncPractice.NumberedName
import AsyncPractice.Runs

/- HBaseTable of hbase_columnar.go. Every call is one step. Get hands out a pointer to the first
cell of a column; a flush makes a new slice and writes to no cell of the old one, so the pointer is
as good as the cell. Instants are nanoseconds, the zero Time being 0. -/
namespace AsyncPractice.HBase

structure Cell where
  value : Bytes
  timestamp : Int
  version : Nat

/-- The newest cell comes first. -/
structure Column where
  family : String
  qualifier : String
  cells : List Cell

structure Row where
  key : String
  columns : GoMap String (GoMap String Column)

structure CacheEntry where
  data : Cell
  size : Nat
  accessTime : Int

structure BlockCache where
  cache : GoMap String CacheEntry
  capacity : Nat

structure WriteEntry where
  rowKey : String
  family : String
  qualifier : String
  value : Bytes
  timestamp : Int

structure HBaseTable where
  rows : GoMap String Row
  families : Finset String
  maxVersions : Nat
  blockCache : BlockCache
  writeBuffer : List WriteEntry

def newHBaseTable (families : List String) (maxVersions : Nat) : HBaseTable where
  rows := ∅
  families := families.toFinset
  maxVersions := maxVersions
  blockCache := ⟨∅, 1000⟩
  writeBuffer := []

/-- Sprintf("%s:%s:%s"). -/
def cacheKey (rowKey family qualifier : String) : String :=
  rowKey ++ ":" ++ family ++ ":" ++ qualifier

section

variable (bc : BlockCache)

def getFromCache (key : String) (now : Int) : BlockCache × Option Cell :=
  match bc.cache.lookup key with
  | some entry =>
    ({ bc with cache := bc.cache.insert key { entry with accessTime := now } }, some entry.data)
  | none => (bc, none)

/-- The search for the oldest entry in the order `order`. An entry with the zero Time does not keep
its place. -/
def oldest (order : List String) : String × Int :=
  order.foldl (fun (oldestKey, oldestTime) k =>
    match bc.cache.lookup k with
    | some v => if oldestTime = 0 ∨ v.accessTime < oldestTime then (k, v.accessTime)
        else (oldestKey, oldestTime)
    | none => (oldestKey, oldestTime)) ("", 0)

def evict (order : List String) : BlockCache :=
  if GoMap.len bc.cache ≥ bc.capacity ∧ (oldest bc order).1 ≠ "" then
    { bc with cache := bc.cache.erase (oldest bc order).1 }
  else bc

def putToCache (key : String) (data : Cell) (size : Nat) (order : List String) (now : Int) :
    BlockCache :=
  let bc := evict bc order
  { bc with cache := bc.cache.insert key ⟨data, size, now⟩ }

end

section

variable (ht : HBaseTable)

/-- The signal to backgroundFlush is left out: it may flush at any time. -/
def put (entry : WriteEntry) : Except String HBaseTable :=
  if entry.family ∉ ht.families then
    .error ("column family " ++ entry.family ++ " does not exist")
  else .ok { ht with writeBuffer := ht.writeBuffer ++ [entry] }

/-- The readings of the clock in Get, and the order in which the cache is searched for its oldest
entry. -/
structure Lookup where
  accessed : Int
  order : List String
  stored : Int

def newest (rows : GoMap String Row) (rowKey family qualifier : String) : Option Cell :=
  (rows.lookup rowKey).bind fun row => (row.columns.lookup family).bind fun familyColumns =>
    (familyColumns.lookup qualifier).bind fun column => column.cells.head?

def get (rowKey family qualifier : String) (how : Lookup) : HBaseTable × Except String Cell :=
  let key := cacheKey rowKey family qualifier
  match getFromCache ht.blockCache key how.accessed with
  | (blockCache, some cell) => ({ ht with blockCache }, .ok cell)
  | (blockCache, none) =>
    match ht.rows.lookup rowKey with
    | none => ({ ht with blockCache }, .error ("row not found: " ++ rowKey))
    | some _ =>
      match newest ht.rows rowKey family qualifier with
      | some cell =>
        let size := cell.value.length
        ({ ht with blockCache := putToCache blockCache key cell size how.order how.stored },
          .ok cell)
      | none => ({ ht with blockCache }, .error ("cell not found: " ++ key))

def rowGroups (entries : List WriteEntry) : GoMap String (List WriteEntry) :=
  entries.foldl (fun groups entry =>
    groups.insert entry.rowKey ((groups.lookup entry.rowKey).getD [] ++ [entry])) ∅

def writeEntry (maxVersions : Nat) (row : Row) (entry : WriteEntry) : Row :=
  let familyColumns := (row.columns.lookup entry.family).getD ∅
  let column := (familyColumns.lookup entry.qualifier).getD ⟨entry.family, entry.qualifier, []⟩
  let cell : Cell := ⟨entry.value, entry.timestamp, column.cells.length + 1⟩
  let column := { column with cells := (cell :: column.cells).take maxVersions }
  { row with
    columns := row.columns.insert entry.family (familyColumns.insert entry.qualifier column) }

def writeRow (maxVersions : Nat) (rowKey : String) (rowEntries : List WriteEntry)
    (row : Option Row) : Row :=
  rowEntries.foldl (writeEntry maxVersions) (row.getD ⟨rowKey, ∅⟩)

/-- The loop over the groups goes in the order `order`. -/
def flush (order : List String) : HBaseTable :=
  let groups := rowGroups ht.writeBuffer
  let rows := order.foldl (fun rows rowKey => rows.insert rowKey
    (writeRow ht.maxVersions rowKey ((groups.lookup rowKey).getD []) (rows.lookup rowKey))) ht.rows
  { ht with writeBuffer := [], rows }

end

/-- The table with the writes that Put has accepted, which only observe. -/
structure State where
  table : HBaseTable
  puts : List WriteEntry

def start (families : List String) (maxVersions : Nat) : State :=
  ⟨newHBaseTable families maxVersions, []⟩

inductive Event
  | put (entry : WriteEntry)
  | get (rowKey family qualifier : String) (how : Lookup)
  | flush (order : List String)

def step (s : State) : Event → Option State
  | .put entry =>
    match put s.table entry with
    | .ok table => some ⟨table, s.puts ++ [entry]⟩
    | .error _ => some s
  | .get rowKey family qualifier how =>
    if GoMap.Ranges how.order s.table.blockCache.cache then
      some { s with table := (get s.table rowKey family qualifier how).1 }
    else none
  | .flush order =>
    if GoMap.Ranges order (rowGroups s.table.writeBuffer) then
      some { s with table := flush s.table order }
    else none

/- What Get returns when no write is buffered. A Get leaves the cell it has found in the block
cache, and no flush takes it out again. -/
open List GoMap LastWrite Runs

open NumberedName (split_at_first)

/-- The parts of a cache key are free of colons. -/
structure Plain (rowKey family qualifier : String) : Prop where
  rowKey : ':' ∉ rowKey.toList
  family : ':' ∉ family.toList
  qualifier : ':' ∉ qualifier.toList

theorem Plain.cacheKey_injective {rowKey family q row fam qual} (plain : Plain rowKey family q)
    (eq : cacheKey row fam qual = cacheKey rowKey family q) :
    row = rowKey ∧ fam = family ∧ qual = q := by
  have texts := congrArg String.toList eq
  have colon : ":".toList = [':'] := rfl
  simp only [cacheKey, String.toList_append, append_assoc, colon, singleton_append] at texts
  -- The other key has no more than the two colons between its parts.
  have counts := congrArg (count ':') texts
  simp only [count_append, count_cons_self, count_eq_zero.mpr plain.rowKey,
    count_eq_zero.mpr plain.family, count_eq_zero.mpr plain.qualifier] at counts
  have x : ':' ∉ row.toList := count_eq_zero.mp (by omega)
  have y : ':' ∉ fam.toList := count_eq_zero.mp (by omega)
  obtain ⟨rows, rest⟩ := split_at_first x plain.rowKey texts
  obtain ⟨families, qualifiers⟩ := split_at_first y plain.family rest
  exact ⟨String.toList_inj.mp rows, String.toList_inj.mp families, String.toList_inj.mp qualifiers⟩

section

variable (rowKey family qualifier : String)

/-- The value that a write leaves in a cell, if it is one to this cell. -/
def writesTo (entry : WriteEntry) : Option Bytes :=
  if entry.rowKey = rowKey ∧ entry.family = family ∧ entry.qualifier = qualifier then
    some entry.value
  else none

def storedIn (row : Row) : Option Bytes :=
  (((row.columns.lookup family).bind fun familyColumns => familyColumns.lookup qualifier).bind
    fun column => column.cells.head?).map Cell.value

def stored (rows : GoMap String Row) : Option Bytes :=
  (rows.lookup rowKey).bind (storedIn family qualifier)

theorem stored_eq (rows) :
    stored rowKey family qualifier rows = (newest rows rowKey family qualifier).map Cell.value := by
  unfold stored storedIn newest
  cases rows.lookup rowKey with
  | none => rfl
  | some row =>
    dsimp only [Option.bind_some]
    cases row.columns.lookup family <;> rfl

variable {maxVersions : Nat}

theorem storedIn_writeEntry (versions : 1 ≤ maxVersions) (row e) :
    storedIn family qualifier (writeEntry maxVersions row e) =
      (if e.family = family ∧ e.qualifier = qualifier then some e.value else none).or
        (storedIn family qualifier row) := by
  obtain ⟨more, rfl⟩ := Nat.exists_eq_add_of_le' versions
  simp only [storedIn, writeEntry, lookup_insert_ite]
  by_cases same : family = e.family
  · subst same
    simp only [if_true, Option.bind_some, lookup_insert_ite, true_and]
    by_cases own : qualifier = e.qualifier
    · subst own
      simp
    · rw [if_neg own, if_neg (Ne.symm own), Option.none_or]
      cases row.columns.lookup e.family <;> simp
  · simp only [same, if_false, Ne.symm same, false_and, Option.none_or]

theorem group_rowGroups (es) :
    ((rowGroups es).lookup rowKey).getD [] = es.filter fun e => e.rowKey = rowKey := by
  induction es using reverseRecOn with
  | nil => rfl
  | append_singleton es e ih =>
    rw [rowGroups, foldl_concat, ← rowGroups, lookup_insert_ite, filter_append]
    by_cases same : rowKey = e.rowKey
    · subst same
      simp [ih]
    · rw [if_neg same, ih]
      simp [Ne.symm same]

theorem mem_rowGroups (es) :
    rowKey ∈ rowGroups es ↔ ∃ e ∈ es, e.rowKey = rowKey := by
  induction es using reverseRecOn with
  | nil => exact iff_of_false Finmap.notMem_empty (by simp)
  | append_singleton es e ih =>
    rw [rowGroups, foldl_concat, ← rowGroups, Finmap.mem_insert, ih]
    simp [or_and_right, exists_or, or_comm, eq_comm]

theorem last_rowGroup (entries) :
    last (fun e : WriteEntry =>
        if e.family = family ∧ e.qualifier = qualifier then some e.value else none)
        (entries.filter fun e => e.rowKey = rowKey) =
      last (writesTo rowKey family qualifier) entries := by
  unfold last
  rw [filterMap_filter]
  congr 2
  funext e
  by_cases own : e.rowKey = rowKey <;> simp [writesTo, own]

theorem storedIn_writeRow (versions : 1 ≤ maxVersions) (entries row) :
    storedIn family qualifier (writeRow maxVersions rowKey
        (entries.filter fun e => e.rowKey = rowKey) row) =
      (last (writesTo rowKey family qualifier) entries).or
        (row.bind (storedIn family qualifier)) := by
  rw [writeRow, foldl_last_or _ _ (storedIn_writeEntry family qualifier versions), last_rowGroup]
  cases row <;> rfl

/-- A flush leaves in every cell what was put into it last. -/
theorem stored_flush {ht} (versions : 1 ≤ ht.maxVersions) {order}
    (ranges : Ranges order (rowGroups ht.writeBuffer)) :
    stored rowKey family qualifier (flush ht order).rows =
      (last (writesTo rowKey family qualifier) ht.writeBuffer).or
        (stored rowKey family qualifier ht.rows) := by
  have rows := lookup_foldl_insert (fun k => writeRow ht.maxVersions k
    (((rowGroups ht.writeBuffer).lookup k).getD [])) ranges.1 ht.rows rowKey
  unfold stored flush
  rw [rows]
  by_cases written : rowKey ∈ order
  · rw [if_pos written, Option.bind_some, group_rowGroups, storedIn_writeRow _ _ _ versions]
  · rw [if_neg written]
    have none : last (writesTo rowKey family qualifier) ht.writeBuffer = none := by
      by_contra hit
      obtain ⟨v, hit⟩ := Option.ne_none_iff_exists'.mp hit
      obtain ⟨e, mem, ws⟩ := exists_of_last hit
      obtain ⟨⟨own, -⟩, -⟩ := Option.ite_none_right_eq_some.mp ws
      exact written (ranges.mem_iff.mpr ((mem_rowGroups rowKey _).mpr ⟨e, mem, own⟩))
    rw [none, Option.none_or]

end

section

variable {ht : HBaseTable} {rowKey family q : String} {how : Lookup} {e : CacheEntry}

theorem get_cached (hit : ht.blockCache.cache.lookup (cacheKey rowKey family q) = some e) :
    (get ht rowKey family q how).2 = .ok e.data := by
  simp only [get, getFromCache, hit]

theorem get_uncached {cell} (absent : ht.blockCache.cache.lookup (cacheKey rowKey family q) = none)
    (found : newest ht.rows rowKey family q = some cell) :
    (get ht rowKey family q how).2 = .ok cell := by
  have row : ∃ row, ht.rows.lookup rowKey = some row := by
    cases hit : ht.rows.lookup rowKey with
    | none => simp [newest, hit] at found
    | some row => exact ⟨row, rfl⟩
  obtain ⟨row, hit⟩ := row
  simp only [get, getFromCache, absent, hit, found]

theorem lookup_evict {bc order k} (hit : (evict bc order).cache.lookup k = some e) :
    bc.cache.lookup k = some e := by
  unfold evict at hit
  split at hit
  · exact (lookup_erase_cases hit).2
  · exact hit

/-- A Get changes only the cache, whose entries then hold what they did before or, for the cell that
was asked for, the newest version. -/
theorem get_table (ht rowKey family q how) :
    ∃ blockCache, (get ht rowKey family q how).1 = { ht with blockCache } ∧
      ∀ k e, blockCache.cache.lookup k = some e →
        (∃ old, ht.blockCache.cache.lookup k = some old ∧ old.data = e.data) ∨
          k = cacheKey rowKey family q ∧ newest ht.rows rowKey family q = some e.data := by
  cases cached : ht.blockCache.cache.lookup (cacheKey rowKey family q) with
  | some hit =>
    simp only [get, getFromCache, cached]
    refine ⟨_, rfl, fun k e found => Or.inl ?_⟩
    rcases lookup_insert_cases found with ⟨rfl, rfl⟩ | ⟨-, pre⟩
    · exact ⟨hit, cached, rfl⟩
    · exact ⟨e, pre, rfl⟩
  | none =>
    simp only [get, getFromCache, cached]
    cases ht.rows.lookup rowKey with
    | none => exact ⟨_, rfl, fun k e found => .inl ⟨e, found, rfl⟩⟩
    | some row =>
      cases present : newest ht.rows rowKey family q with
      | none => exact ⟨_, rfl, fun k e found => .inl ⟨e, found, rfl⟩⟩
      | some cell =>
        refine ⟨_, rfl, fun k e found => ?_⟩
        rcases lookup_insert_cases found with ⟨rfl, rfl⟩ | ⟨-, pre⟩
        · exact .inr ⟨rfl, rfl⟩
        · exact .inl ⟨e, lookup_evict pre, rfl⟩

end

section

/-- A Get that could now be made for a cell returns what was put into it last. -/
def Serves (s : State) : Prop :=
  s.table.writeBuffer = [] → ∀ rowKey family qualifier, Plain rowKey family qualifier →
    ∀ value, last (writesTo rowKey family qualifier) s.puts = some value →
      ∀ how, ∃ cell, (get s.table rowKey family qualifier how).2 = .ok cell ∧ cell.value = value

/-- A flush writes no new value into a cell that is in the cache. -/
def Keeps (s : State) : Event → Prop
  | .flush _ => ∀ rowKey family qualifier, Plain rowKey family qualifier →
      ∀ entry, s.table.blockCache.cache.lookup (cacheKey rowKey family qualifier) = some entry →
        ∀ value, last (writesTo rowKey family qualifier) s.table.writeBuffer = some value →
          entry.data.value = value
  | _ => True

/-- What was put last is buffered or stored, and the cache holds what is stored. -/
structure Coherent (s : State) : Prop where
  versions : 1 ≤ s.table.maxVersions
  holds : ∀ rowKey family qualifier, last (writesTo rowKey family qualifier) s.puts =
    (last (writesTo rowKey family qualifier) s.table.writeBuffer).or
      (stored rowKey family qualifier s.table.rows)
  cached : ∀ rowKey family qualifier, Plain rowKey family qualifier →
    ∀ entry, s.table.blockCache.cache.lookup (cacheKey rowKey family qualifier) = some entry →
      stored rowKey family qualifier s.table.rows = some entry.data.value

variable {s next : State} {event : Event} {events : List Event} {families : List String}
  {maxVersions : Nat} {final : State}

theorem coherent_start (versions : 1 ≤ maxVersions) : Coherent (start families maxVersions) :=
  ⟨versions, fun _ _ _ => rfl, by simp [start, newHBaseTable]⟩

variable (coherent : Coherent s)
include coherent

theorem Coherent.serves : Serves s := by
  intro flushed rowKey family q plain v latest how
  have held := coherent.holds rowKey family q
  rw [latest, flushed, last_nil, Option.none_or] at held
  cases cached : s.table.blockCache.cache.lookup (cacheKey rowKey family q) with
  | some e =>
    refine ⟨e.data, get_cached cached, ?_⟩
    have eq := coherent.cached rowKey family q plain e cached
    rw [← held, Option.some.injEq] at eq
    exact eq.symm
  | none =>
    rw [stored_eq, eq_comm, Option.map_eq_some_iff] at held
    obtain ⟨cell, hit, eq⟩ := held
    exact ⟨cell, get_uncached cached hit, eq⟩

theorem Coherent.put (e : WriteEntry) :
    Coherent ⟨{ s.table with writeBuffer := s.table.writeBuffer ++ [e] }, s.puts ++ [e]⟩ where
  versions := coherent.versions
  holds rowKey family qualifier := by
    rw [last_snoc, last_snoc, coherent.holds rowKey family qualifier, Option.or_assoc]
  cached := coherent.cached

theorem Coherent.get (rowKey family q : String) (how : Lookup) :
    Coherent { s with table := (get s.table rowKey family q how).1 } := by
  obtain ⟨blockCache, tb, es⟩ := get_table s.table rowKey family q how
  rw [tb]
  refine ⟨coherent.versions, coherent.holds, ?_⟩
  intro row fam qual plain e found
  rcases es _ e found with ⟨old, pre, eq⟩ | ⟨k, hit⟩
  · rw [← eq]
    exact coherent.cached row fam qual plain old pre
  · obtain ⟨rfl, rfl, rfl⟩ := plain.cacheKey_injective k.symm
    rw [stored_eq, hit]
    rfl

theorem Coherent.flush {order} (ranges : Ranges order (rowGroups s.table.writeBuffer))
    (keeps : Keeps s (.flush order)) : Coherent { s with table := flush s.table order } := by
  refine ⟨coherent.versions, fun rowKey family q => ?_, ?_⟩
  · rw [stored_flush rowKey family q coherent.versions ranges]
    exact coherent.holds rowKey family q
  · intro rowKey family q plain e hit
    rw [stored_flush rowKey family q coherent.versions ranges]
    cases written : last (writesTo rowKey family q) s.table.writeBuffer with
    | none => exact coherent.cached rowKey family q plain e hit
    | some v =>
      rw [keeps rowKey family q plain e hit v written]
      rfl

theorem Coherent.moves (keeps : Keeps s event) (took : step s event = some next) :
    Coherent next := by
  cases event with
  | put e =>
    unfold step HBase.put at took
    by_cases unknown : e.family ∉ s.table.families
    · simp only [if_pos unknown] at took
      cases took
      exact coherent
    · simp only [if_neg unknown] at took
      cases took
      exact coherent.put e
  | get rowKey family q how =>
    obtain ⟨-, rfl⟩ := guard_some.mp took
    exact coherent.get rowKey family q how
  | flush order =>
    obtain ⟨ranges, rfl⟩ := guard_some.mp took
    exact coherent.flush ranges keeps

/-- The entry stays in the cache when its cell is written, and is what the next Get returns. -/
theorem Coherent.keeps (took : step s event = some next) (serves : Serves next) :
    Keeps s event := by
  cases event with
  | put e => trivial
  | get rowKey family q how => trivial
  | flush order =>
    obtain ⟨-, rfl⟩ := guard_some.mp took
    intro rowKey family q plain e found v wrote
    have latest : last (writesTo rowKey family q) s.puts = some v := by
      rw [coherent.holds, wrote]
      rfl
    obtain ⟨cell, ret, eq⟩ :=
      serves rfl rowKey family q plain v latest ⟨0, [], 0⟩
    have hit : (HBase.flush s.table order).blockCache.cache.lookup
        (cacheKey rowKey family q) = some e := found
    rw [get_cached hit, Except.ok.injEq] at ret
    rw [ret, eq]

omit coherent

/-- In every state of a run a Get returns what was put into its cell last, once that is flushed,
exactly if no flush writes a new value into a cell that is in the cache. -/
theorem get_serves_latest_iff (versions : 1 ≤ maxVersions)
    (run : exec step (start families maxVersions) events = some final) :
    Throughout step Serves (start families maxVersions) events ↔
      Along step Keeps (start families maxVersions) events := by
  refine throughout_iff_along_of_run Coherent (coherent_start versions)
    (fun _ coherent => coherent.serves) ?_ ?_ run
  · intro s event next coherent keeps stepped
    exact coherent.moves keeps stepped
  · intro s event next coherent stepped serves
    exact coherent.keeps stepped serves

end

section

def untouched (s : State) : Event → Bool
  | .flush _ => s.table.writeBuffer.all fun entry =>
    (s.table.blockCache.cache.lookup
      (cacheKey entry.rowKey entry.family entry.qualifier)).isNone
  | _ => true

theorem keeps_of_untouched (s e) (ok : untouched s e = true) : Keeps s e := by
  cases e with
  | put entry => trivial
  | get rowKey family q how => trivial
  | flush order =>
    intro rowKey family q plain entry hit v wrote
    obtain ⟨write, mem, ws⟩ := exists_of_last wrote
    obtain ⟨⟨rfl, rfl, rfl⟩, -⟩ := Option.ite_none_right_eq_some.mp ws
    have absent := all_eq_true.mp ok write mem
    rw [hit] at absent
    cases absent

def putName (value : UInt8) : Event := .put ⟨"user1", "personal", "name", [value], 0⟩

def getName (order : List String) : Event := .get "user1" "personal" "name" ⟨0, order, 0⟩

def readLast : List Event :=
  [putName 1, .flush ["user1"], putName 2, .flush ["user1"], getName [],
    .put ⟨"user2", "personal", "name", [3], 0⟩, .flush ["user2"]]

theorem readLast_serves :
    ∃ final, exec step (start ["personal"] 1) readLast = some final ∧
      final.puts.map WriteEntry.value = [[1], [2], [3]] ∧ Serves final := by
  refine exists_exec (fun s => s.puts.map WriteEntry.value = [[1], [2], [3]]) (by decide) ?_
  intro final run puts
  have keeps : Along step Keeps (start ["personal"] 1) readLast :=
    along_of_check untouched keeps_of_untouched (by decide)
  exact ⟨puts, ((get_serves_latest_iff (by decide) run).mpr keeps).last run⟩

/-- The first Get leaves the first value in the cache, and the second one still returns it. -/
theorem stale_cell_served :
    ∃ final, exec step (start ["personal"] 3)
        [putName 1, .flush ["user1"], getName [], putName 2, .flush ["user1"]] = some final ∧
      final.table.writeBuffer.length = 0 ∧ final.puts.map WriteEntry.value = [[1], [2]] ∧
      (get final.table "user1" "personal" "name" ⟨0, [], 0⟩).2.toOption.map Cell.value =
        some [1] :=
  ⟨_, rfl, by decide, by decide, by decide⟩

end

end AsyncPractice.HBase
