import Mathlib.Data.String.Basic
import AsyncPractice.LastWrite
import AsyncPractice.WideColumnStore

/- What Get and Scan return from a memtable that was not flushed. -/
namespace AsyncPractice.WideColumnStore

open LastWrite (exists_of_last foldl_last_or last)
open List

/-- A Put leaves what Get returns for a cell exactly when it is for another row or another column
key, or puts the value that is there already. Different cells may have one column key. -/
theorem put_leaves_cell_iff (calls : List PutCall) (call : PutCall)
    (rowKey cfName qualifier : String) :
    get (put (calls.foldl put newWideColumnStore) call) rowKey cfName qualifier =
        get (calls.foldl put newWideColumnStore) rowKey cfName qualifier ↔
      call.rowKey ≠ rowKey ∨ columnKey call.cfName call.qualifier ≠ columnKey cfName qualifier ∨
        get (calls.foldl put newWideColumnStore) rowKey cfName qualifier = .ok call.value := by
  rw [get_put]
  split
  · rename_i same
    rw [eq_comm]
    simp [same]
  · rename_i other
    simp only [true_iff]
    tauto

/-- The families a:b and a have the column key a:b:c in common. -/
theorem put_touches_other_cell :
    (get newWideColumnStore "row" "a" "b:c").toOption = none ∧
      (get (put newWideColumnStore ⟨"row", "a:b", "c", [1], 0⟩) "row" "a" "b:c").toOption =
        some [1] := by
  decide

theorem columnKey_ne_key (cfName q) : columnKey cfName q ≠ "key" := by
  intro eq
  have colon : ':' ∈ (columnKey cfName q).toList := by simp [columnKey]
  rw [eq] at colon
  revert colon
  decide

def shown (columns : GoMap String WideColumn) (colKey : String) : Option Field :=
  ((columns.lookup colKey).bind (·.versions.getLast?)).bind fun latest =>
    if latest.deleted then none else some (.value latest.value)

theorem lookup_visited (k c columns order) :
    (scanRow k columns order).lookup c = (if c ∈ order then shown columns c else none).or
        (if c = "key" then some (.key k) else none) := by
  induction order using reverseRecOn with
  | nil => simp [scanRow, GoMap.lookup_insert_ite]
  | append_singleton order colKey ih =>
    have row : scanRow k columns (order ++ [colKey]) = match shown columns colKey with
        | some field => (scanRow k columns order).insert colKey field
        | none => scanRow k columns order := by
      rw [scanRow, foldl_concat, shown]
      cases (columns.lookup colKey).bind (·.versions.getLast?) with
      | none => rfl
      | some latest => cases deleted : latest.deleted <;> simp [deleted, scanRow]
    rw [row]
    by_cases same : c = colKey
    · subst same
      cases found : shown columns c with
      | none => simpa [found] using ih
      | some field => simp
    · cases shown columns colKey with
      | none => simpa [same] using ih
      | some field => simpa [same] using ih

theorem lookup_scanRow (k c) {columns order} (ranges : GoMap.Ranges order columns) :
    (scanRow k columns order).lookup c =
      (shown columns c).or (if c = "key" then some (.key k) else none) := by
  have absent : c ∉ order → shown columns c = none := by
    intro no
    rw [shown, Finmap.lookup_eq_none.mpr (mt ranges.mem_iff.mpr no)]
    rfl
  rw [lookup_visited]
  split
  · rfl
  next no =>
    rw [absent no]

theorem scanRows_eq (wcs limit columnOrder keys results) :
    scanRows wcs limit columnOrder keys results = results ++
      (keys.take (limit - results.length).toNat).map fun k =>
        scanRow k (wcs.columns k) (columnOrder k) := by
  induction keys generalizing results with
  | nil => simp [scanRows]
  | cons k keys ih =>
    unfold scanRows
    split
    next full =>
      rw [show (limit - results.length).toNat = 0 by omega, take_zero, map_nil, append_nil]
    next room =>
      rw [ih, show (limit - results.length).toNat = (limit - (results.length + 1)).toNat + 1 by
        omega]
      simp

/-- What the call writes to a column of the row. -/
def PutCall.field (rowKey colKey : String) (call : PutCall) : Option Field :=
  if call.rowKey = rowKey ∧ columnKey call.cfName call.qualifier = colKey
  then some (.value call.value) else none

theorem shown_columns (wcs rowKey c) :
    shown (wcs.columns rowKey) c = (versionsAt wcs rowKey c).getLast?.bind fun latest =>
      if latest.deleted then none else some (.value latest.value) := by
  unfold shown versionsAt Store.columns
  cases wcs.memtable.data.lookup rowKey with
  | none => rfl
  | some columns => cases found : columns.lookup c <;> simp [found]

theorem shown_put (wcs call rowKey c) :
    shown ((put wcs call).columns rowKey) c =
      (call.field rowKey c).or (shown (wcs.columns rowKey) c) := by
  rw [shown_columns, versionsAt_put, shown_columns, PutCall.field]
  split <;> simp

theorem shown_run (cs rowKey c) :
    shown ((cs.foldl put newWideColumnStore).columns rowKey) c =
      last (PutCall.field rowKey c) cs := by
  have runs := foldl_last_or (PutCall.field rowKey c) (fun wcs => shown (wcs.columns rowKey) c)
    (fun wcs call => shown_put wcs call rowKey c) newWideColumnStore cs
  rw [runs]
  exact Option.or_none

/-- No column has the name under which Scan gives the key of the row. -/
theorem last_field_key (cs rowKey) : last (PutCall.field rowKey "key") cs = none := by
  cases found : last (PutCall.field rowKey "key") cs with
  | none => rfl
  | some field =>
    obtain ⟨c, -, wrote⟩ := exists_of_last found
    unfold PutCall.field at wrote
    rw [if_neg fun both => columnKey_ne_key _ _ both.2] at wrote
    cases wrote

theorem mem_data_run (cs : List PutCall) (rowKey) :
    rowKey ∈ (cs.foldl put newWideColumnStore).memtable.data ↔ ∃ c ∈ cs, c.rowKey = rowKey := by
  induction cs using reverseRecOn with
  | nil => simp [newWideColumnStore, Finmap.notMem_empty]
  | append_singleton cs c ih =>
    rw [foldl_concat, put, Finmap.mem_insert, ih]
    simp [or_comm, eq_comm]

/-- The rows are those of the first keys of the range that were written, in ascending order. A row
has the value put last for every column that was written, and the row's key. -/
theorem scan_first_rows {calls : List PutCall} {order : List String}
    {columnOrder : String → List String} (wcs : Store)
    (reached : wcs = calls.foldl put newWideColumnStore)
    (rows : GoMap.Ranges order wcs.memtable.data)
    (columns : ∀ key ∈ order, GoMap.Ranges (columnOrder key) (wcs.columns key))
    (startKey endKey : String) (limit : Int) :
    ∃ (keys : List String) (row : String → GoMap String Field),
      scan wcs order columnOrder startKey endKey limit = (keys.take limit.toNat).map row ∧
      keys.Pairwise (· < ·) ∧
      (∀ key, key ∈ keys ↔ startKey ≤ key ∧ key ≤ endKey ∧ ∃ call ∈ calls, call.rowKey = key) ∧
      ∀ key ∈ keys, (row key).lookup "key" = some (.key key) ∧ ∀ c,
        (row key).lookup c =
          (last (PutCall.field key c) calls).or (if c = "key" then some (.key key) else none) := by
  have perm := SliceSort.sortSlice_perm (· < ·) (order.filter fun k => startKey ≤ k ∧ k ≤ endKey)
  refine ⟨SliceSort.sortSlice (· < ·) (order.filter fun k => startKey ≤ k ∧ k ≤ endKey),
    fun key => scanRow key (wcs.columns key) (columnOrder key), ?_, ?_, ?_, ?_⟩
  · rw [scan, scanRows_eq]
    simp
  · exact SliceSort.sortSlice_strict (fun _ _ _ _ same => same) (fun _ _ => Iff.rfl)
      (rows.1.filter _)
  · intro key
    rw [perm.mem_iff, mem_filter, rows.mem_iff, reached, mem_data_run, decide_eq_true_eq]
    tauto
  · intro key listed
    have ranges := columns key (mem_filter.mp (perm.mem_iff.mp listed)).1
    have row : ∀ c, (scanRow key (wcs.columns key) (columnOrder key)).lookup c =
        (last (PutCall.field key c) calls).or (if c = "key" then some (.key key) else none) := by
      intro c
      rw [lookup_scanRow key c ranges, reached, shown_run]
    refine ⟨?_, row⟩
    rw [row, last_field_key]
    rfl

/-- Two rows of three, one of them put twice. -/
theorem scan_two_rows :
    let calls : List PutCall := [⟨"b", "cf", "q", [1], 0⟩, ⟨"a", "cf", "q", [2], 1⟩,
      ⟨"c", "cf", "q", [3], 2⟩, ⟨"b", "cf", "q", [4], 3⟩]
    let wcs := calls.foldl put newWideColumnStore
    let columnOrder := fun _ => ["cf:q"]
    (scan wcs ["c", "a", "b"] columnOrder "a" "z" 2).map (·.lookup "cf:q") =
      [some (.value [2]), some (.value [4])] ∧
    ∃ (keys : List String) (row : String → GoMap String Field),
      scan wcs ["c", "a", "b"] columnOrder "a" "z" 2 = (keys.take 2).map row ∧
      keys.Pairwise (· < ·) := by
  intro calls wcs columnOrder
  obtain ⟨keys, row, result, ordered, -⟩ := scan_first_rows wcs rfl
    (show GoMap.Ranges ["c", "a", "b"] _ by decide)
    (show ∀ key ∈ ["c", "a", "b"], GoMap.Ranges (columnOrder key) _ by decide) "a" "z" 2
  exact ⟨by decide, keys, row, result, ordered⟩

end AsyncPractice.WideColumnStore
