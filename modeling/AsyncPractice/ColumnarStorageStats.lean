import Mathlib.Data.String.Basic
import AsyncPractice.ColumnarStorage

/- Stats.Min and Stats.Max of the columns. What is compared is asserted to be an int, so a column of
strings can take a single value. -/
namespace AsyncPractice.ColumnarStorage

open GoMap List Runs

def Value.HasType (numeric : Bool) : Value String → Prop
  | .int _ => numeric = true
  | .other _ => numeric = false
  | .nil => False

def Value.Le : Value String → Value String → Prop
  | .int m, .int n => m ≤ n
  | .other s, .other t => s ≤ t
  | _, _ => False

/-- The minimum and the maximum of the values, if there are any. -/
def Extremes (min max : Value String) (values : List (Value String)) : Prop :=
  values = [] ∧ min = .nil ∧ max = .nil ∨
    min ∈ values ∧ max ∈ values ∧ ∀ value ∈ values, min.Le value ∧ value.Le max

structure Column.Right (numeric : Bool) (col : Column String) : Prop where
  typed : ∀ value ∈ col.values, value.HasType numeric
  extremes : Extremes col.min col.max col.values
  few : numeric = false → col.values.length ≤ 1

variable {col : Column String} {v : Value String}

theorem Value.HasType.eq_int (typed : v.HasType true) : ∃ n, v = .int n := by
  cases v with
  | int n => exact ⟨n, rfl⟩
  | nil => cases typed
  | other s => cases typed

theorem Value.HasType.eq_other (typed : v.HasType false) : ∃ s, v = .other s := by
  cases v with
  | other s => exact ⟨s, rfl⟩
  | nil => cases typed
  | int n => cases typed

/-- A value of the right type keeps a column right, or it is the second string. -/
theorem updateColumnStats_cases {numeric : Bool} (right : col.Right numeric)
    (typed : v.HasType numeric) :
    (∃ changed, updateColumnStats { col with values := col.values ++ [v] } v = some changed ∧
        changed.Right numeric) ∨
      (updateColumnStats { col with values := col.values ++ [v] } v = none ∧ numeric = false ∧
        col.values ≠ []) := by
  have all := forall_mem_snoc right.typed typed
  rcases right.extremes with ⟨empty, min, max⟩ | ⟨least, most, bounds⟩
  · have refl : v.Le v := by
      cases v with
      | nil => exact typed
      | int n => exact le_refl n
      | other s => exact le_refl s
    refine .inl ⟨⟨col.values ++ [v], v, v⟩, by simp [updateColumnStats, updateStat, min, max], ?_⟩
    exact ⟨all, .inr (by simp [empty, refl]), fun _ => by simp [empty]⟩
  · cases numeric with
    | false =>
      refine .inr ⟨?_, rfl, ne_nil_of_mem least⟩
      obtain ⟨s, min⟩ := (right.typed _ least).eq_other
      obtain ⟨t, rfl⟩ := typed.eq_other
      simp [updateColumnStats, updateStat, min, Value.asInt]
    | true =>
      obtain ⟨lo, min⟩ := (right.typed _ least).eq_int
      obtain ⟨hi, max⟩ := (right.typed _ most).eq_int
      obtain ⟨n, rfl⟩ := typed.eq_int
      refine .inl ⟨⟨col.values ++ [.int n], if n < lo then .int n else .int lo,
        if n > hi then .int n else .int hi⟩,
        by simp [updateColumnStats, updateStat, min, max, Value.asInt], all, Or.inr ?_, by simp⟩
      rw [min, max] at bounds
      rw [min] at least
      rw [max] at most
      have order : lo ≤ hi := (bounds _ least).2
      refine ⟨by dsimp only; split <;> simp [least], by dsimp only; split <;> simp [most], ?_⟩
      intro value mem
      obtain ⟨k, rfl⟩ := (all value mem).eq_int
      have lt : k = n ∨ lo ≤ k ∧ k ≤ hi := by
        rcases mem_append.mp mem with old | new
        · exact .inr (bounds _ old)
        · exact .inl (Value.int.inj (mem_singleton.mp new))
      split <;> split <;> simp only [Value.Le] <;> omega

/-- The columns are those named, and right for the types declared. -/
def Storage.Right (names : List String) (numeric : String → Bool) (cs : Storage String) : Prop :=
  ∀ name col, cs.columns.lookup name = some col → name ∈ names ∧ col.Right (numeric name)

variable {ns : List String} {numeric : String → Bool} {cs t : Storage String} {name : String}

theorem append_cases (right : cs.Right ns numeric) (typed : name ∈ ns → v.HasType (numeric name)) :
    (∃ t, cs.append name v = some t ∧ t.Right ns numeric ∧
        ∀ x ≠ name, t.columns.lookup x = cs.columns.lookup x) ∨
      (cs.append name v = none ∧ numeric name = false ∧
        ∃ col, cs.columns.lookup name = some col ∧ col.values ≠ []) := by
  unfold Storage.append
  cases found : cs.columns.lookup name with
  | none => exact .inl ⟨cs, rfl, right, fun _ _ => rfl⟩
  | some col =>
    dsimp only
    obtain ⟨named, held⟩ := right name col found
    rcases updateColumnStats_cases held (typed named) with ⟨changed, updated, held⟩ |
      ⟨failed, string, full⟩
    · refine .inl ⟨_, by rw [updated]; rfl, ?_, fun x ne => Finmap.lookup_insert_of_ne _ ne⟩
      intro x col hit
      rcases lookup_insert_cases hit with ⟨rfl, rfl⟩ | ⟨-, hit⟩
      · exact ⟨named, held⟩
      · exact right x col hit
    · exact .inr ⟨by rw [failed]; rfl, string, col, rfl, full⟩

def Typed (names : List String) (numeric : String → Bool) (row : Row String) : Prop :=
  ∀ name ∈ names, ∀ v, row.lookup name = some v → v.HasType (numeric name)

variable {c : InsertCall String}

theorem given_typed (typed : Typed ns numeric c.row) (mem : name ∈ c.row)
    (column : name ∈ ns) : Value.HasType (numeric name) ((c.row.lookup name).getD .nil) := by
  obtain ⟨v, given⟩ := Option.isSome_iff_exists.mp (Finmap.lookup_isSome.mpr mem)
  rw [given]
  exact typed name column v given

theorem insert_right (right : cs.Right ns numeric) (typed : Typed ns numeric c.row)
    (put : insert cs c = some t) : t.Right ns numeric := by
  obtain ⟨ranges, put⟩ := Option.ite_none_right_eq_some.mp put
  obtain ⟨filled, app, rfl⟩ := Option.map_eq_some_iff.mp put
  have hit : ∀ name ∈ c.order, name ∈ c.row := fun name => ranges.mem_iff.mp
  have logged : (cs.log c.row).Right ns numeric := right
  have came : filled.Right ns numeric := by
    refine exec_guarded (Storage.Right ns numeric) logged ?_ app (along_of_forall hit)
    intro cs name t right mem took
    rcases append_cases right (given_typed typed mem) with ⟨t', took', right', -⟩ | ⟨failed, -⟩
    · rw [took, Option.some.injEq] at took'
      exact took' ▸ right'
    · rw [failed] at took
      cases took
  unfold Storage.signal
  split <;> exact came

theorem insert_of_free (right : cs.Right ns numeric) (typed : Typed ns numeric c.row)
    (ranges : Ranges c.order c.row) (free : ∀ name ∈ c.order, numeric name = false →
      ∀ col, cs.columns.lookup name = some col → col.values = []) : ∃ t, insert cs c = some t := by
  have loop : ∀ (order : List String) (cs : Storage String), order.Nodup →
      (∀ name ∈ order, name ∈ c.row) → cs.Right ns numeric →
      (∀ name ∈ order, numeric name = false →
        ∀ col, cs.columns.lookup name = some col → col.values = []) →
      ∃ t, cs.appendRow c.row order = some t := by
    intro order
    induction order with
    | nil => exact fun cs _ _ _ _ => ⟨cs, rfl⟩
    | cons name order ih =>
      intro cs nodup present right free
      obtain ⟨fresh, nodup⟩ := nodup_cons.mp nodup
      have typed' := given_typed typed (present name mem_cons_self)
      rcases append_cases right typed' with ⟨next, took, right', others⟩ |
        ⟨-, string, col, hit, full⟩
      · obtain ⟨t, rest⟩ := ih next nodup (fun other mem => present other (mem_cons_of_mem _ mem))
          right' fun other mem => by
            rw [others other (ne_of_mem_of_not_mem mem fresh)]
            exact free other (mem_cons_of_mem _ mem)
        exact ⟨t, exec_cons_some.mpr ⟨next, took, rest⟩⟩
      · exact absurd (free name mem_cons_self string col hit) full
  obtain ⟨filled, app⟩ := loop c.order (cs.log c.row) ranges.1
    (fun name => ranges.mem_iff.mp) right free
  exact ⟨_, by rw [insert, if_pos ranges, app]; rfl⟩

theorem created_right (ns numeric) : (created ns).Right ns numeric := by
  induction ns using reverseRecOn with
  | nil =>
    intro name col hit
    cases hit
  | append_singleton ns last ih =>
    rw [created, foldl_append, ← created, foldl_cons, foldl_nil]
    intro name col hit
    rcases lookup_insert_cases hit with ⟨rfl, rfl⟩ | ⟨-, hit⟩
    · exact ⟨by simp, by simp, .inl ⟨rfl, rfl, rfl⟩, by simp⟩
    · exact ⟨mem_append_left _ (ih name col hit).1, (ih name col hit).2⟩

theorem column_run {calls : List (InsertCall String)}
    (typed : ∀ c ∈ calls, Typed ns numeric c.row) (run : exec insert (created ns) calls =
      some cs) : cs.Right ns numeric ∧ ∀ name ∈ ns, ∃ col, cs.columns.lookup name = some col ∧
        col.values = calls.filterMap (·.row.lookup name) := by
  obtain ⟨stored, wal⟩ := stored_run run
  refine ⟨exec_guarded (Storage.Right ns numeric) (created_right ns numeric)
    (fun _ _ _ right typed => insert_right right typed) run (along_of_forall typed), ?_⟩
  intro name column
  have vs := stored name
  rw [if_pos column, wal, filterMap_map] at vs
  obtain ⟨col, hit, eq⟩ := Option.map_eq_some_iff.mp vs
  exact ⟨col, hit, eq⟩

/-- Inserts of values of the types declared go through, and leave the minimum and the maximum of
every column in its statistics, exactly when no column of strings gets a second value. -/
theorem column_stats_iff {names : List String} (numeric : String → Bool)
    {calls : List (InsertCall String)} (ranges : ∀ call ∈ calls, GoMap.Ranges call.order call.row)
    (typed : ∀ call ∈ calls, Typed names numeric call.row) :
    (∃ cs, exec insert (created names) calls = some cs ∧ ∀ name ∈ names, ∃ col,
        cs.columns.lookup name = some col ∧
        Extremes col.min col.max (calls.filterMap (·.row.lookup name))) ↔
      ∀ name ∈ names, numeric name = false →
        (calls.filterMap (·.row.lookup name)).length ≤ 1 := by
  constructor
  · rintro ⟨cs, run, -⟩ name column string
    obtain ⟨right, values⟩ := column_run typed run
    obtain ⟨col, hit, same⟩ := values name column
    exact same ▸ (right name col hit).2.few string
  · intro few
    obtain ⟨cs, run⟩ : ∃ cs, exec insert (created names) calls = some cs := by
      induction calls using reverseRecOn with
      | nil => exact ⟨_, rfl⟩
      | append_singleton calls c ih =>
        simp only [filterMap_append, length_append] at few
        obtain ⟨typed, own, -⟩ := forall_mem_append.mp typed |>.imp_right forall_mem_cons.mp
        obtain ⟨cs, run⟩ := ih (fun c mem => ranges c (mem_append_left _ mem)) typed
          fun name column string => (Nat.le_add_right _ _).trans (few name column string)
        obtain ⟨right, values⟩ := column_run typed run
        have legal := ranges c (by simp)
        obtain ⟨t, inserted⟩ := insert_of_free right own legal fun name mem string col hit => by
          -- This row has a value for the column, so no row before it had one.
          obtain ⟨v, given⟩ := Option.isSome_iff_exists.mp
            (Finmap.lookup_isSome.mpr (legal.mem_iff.mp mem))
          have column := (right name col hit).1
          obtain ⟨same, found, held⟩ := values name column
          obtain rfl := Option.some.inj (hit.symm.trans found)
          have two := few name column string
          rw [held]
          simp only [filterMap_cons, given, filterMap_nil, length_singleton] at two
          exact length_eq_zero_iff.mp (by omega)
        exact ⟨t, exec_snoc_some.mpr ⟨cs, run, inserted⟩⟩
    obtain ⟨right, values⟩ := column_run typed run
    refine ⟨cs, run, fun name column => ?_⟩
    obtain ⟨col, hit, same⟩ := values name column
    exact ⟨col, hit, same ▸ (right name col hit).2.extremes⟩

def mixed (n : Int) (s : String) : InsertCall String :=
  ⟨((∅ : Row String).insert "a" (.int n)).insert "b" (.other s), ["a", "b"]⟩

theorem column_stats_one_string :
    ∃ cs, exec insert (created ["a", "b"]) [mixed 5 "x"] = some cs ∧ ∀ name ∈ ["a", "b"], ∃ col,
      cs.columns.lookup name = some col ∧
      Extremes col.min col.max ([mixed 5 "x"].filterMap (·.row.lookup name)) := by
  refine (column_stats_iff (· = "a") (by decide) ?_).mpr (by decide)
  rw [forall_mem_singleton]
  intro name _ v hit
  rcases lookup_insert_cases hit with ⟨rfl, rfl⟩ | ⟨-, hit⟩
  · rfl
  · rcases lookup_insert_cases hit with ⟨rfl, rfl⟩ | ⟨-, hit⟩
    · rfl
    · cases hit

/-- The second string makes the type assertion panic. -/
theorem second_string_panics :
    (exec insert (created ["a", "b"]) [mixed 1 "x", mixed 2 "y"]).isNone = true := by
  decide

end AsyncPractice.ColumnarStorage
