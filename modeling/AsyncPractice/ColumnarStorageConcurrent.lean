import AsyncPractice.ColumnarStorage

/- Calls of Insert that run side by side. A call holds the lock of one column at a time, so the
calls may reach different columns in different orders. -/
namespace AsyncPractice.ColumnarStorage

open Option Finmap Function Runs

/-- Where a call of Insert stands: the columns its loop has not met yet, then the counter and
the compactor. -/
inductive Phase
  | idle
  | appending (left : Finset String)
  | signalling
  | returned
  deriving DecidableEq

def Phase.pending : Phase → Finset String
  | appending left => left
  | _ => ∅

structure State (C A : Type) where
  cs : Storage A
  phase : C → Phase

inductive Event (C : Type)
  | log (c : C)
  | append (c : C) (colName : String)
  | count (c : C)
  | signal (c : C)

variable {C A : Type}

def init (C : Type) (names : List String) : State C A := ⟨created names, fun _ => .idle⟩

def step [DecidableEq C] (rows : C → Row A) (s : State C A) : Event C → Option (State C A)
  | .log c =>
    if s.phase c = .idle then
      some ⟨s.cs.log (rows c), update s.phase c (.appending (rows c).keys)⟩
    else none
  | .append c colName =>
    match s.phase c with
    | .appending left =>
      if colName ∈ left then
        (s.cs.append colName (((rows c).lookup colName).getD .nil)).map fun cs =>
          ⟨cs, update s.phase c (.appending (left.erase colName))⟩
      else none
    | _ => none
  | .count c =>
    if s.phase c = .appending ∅ then
      some ⟨s.cs.count, update s.phase c .signalling⟩
    else none
  | .signal c =>
    if s.phase c = .signalling then
      some ⟨s.cs.signal, update s.phase c .returned⟩
    else none

def Finished (s : State C A) : Prop := ∀ c, s.phase c = .idle ∨ s.phase c = .returned

def Event.logs : Event C → Option C
  | log c => some c
  | _ => none

def Event.appendsTo (colName : String) : Event C → Option C
  | append c name => if name = colName then some c else none
  | _ => none

def started (events : List (Event C)) : List C := events.filterMap Event.logs

/-- The calls that have reached a column, in the order in which they did. -/
def reached (colName : String) (events : List (Event C)) : List C :=
  events.filterMap (Event.appendsTo colName)

def cell (rows : C → Row A) (colName : String) (c : C) : Value A :=
  ((rows c).lookup colName).getD .nil

/-- What the columns hold and where the calls stand after a list of events. -/
structure Tracks (rows : C → Row A) (names : List String) (events : List (Event C))
    (s : State C A) : Prop where
  values : ∀ colName, s.cs.valuesOf colName =
    if colName ∈ names then some ((reached colName events).map (cell rows colName)) else none
  idle : ∀ c, s.phase c = .idle ↔ c ∉ started events
  nodup : (started events).Nodup
  once : ∀ colName, (reached colName events).Nodup
  own : ∀ colName c, colName ∈ (s.phase c).pending → colName ∈ rows c
  mem : ∀ colName c, c ∈ reached colName events ↔
    c ∈ started events ∧ colName ∈ rows c ∧ colName ∉ (s.phase c).pending

section

variable [DecidableEq C] {rows : C → Row A} {ns : List String}
  {es : List (Event C)} {s t : State C A}

omit [DecidableEq C] in
theorem tracks_init (rows : C → Row A) (ns) :
    Tracks rows ns [] (init C ns) where
  values col := created_valuesOf ns col
  idle c := by simp [init, started]
  nodup := List.nodup_nil
  once _ := List.nodup_nil
  own _ _ waits := absurd waits (Finset.notMem_empty _)
  mem col c := by simp [reached, started]

variable (inv : Tracks rows ns es s) {e : Event C} {c : C} {cs : Storage A}

include inv

theorem Tracks.quiet {phase} (logs : e.logs = none) (appends : ∀ col, e.appendsTo col = none)
    (vs : ∀ col, cs.valuesOf col = s.cs.valuesOf col) (active : s.phase c ≠ .idle)
    (later : phase ≠ .idle) (pending : phase.pending = (s.phase c).pending) :
    Tracks rows ns (es ++ [e]) ⟨cs, update s.phase c phase⟩ := by
  have began : started (es ++ [e]) = started es := by
    simp [started, List.filterMap_append, logs]
  have eq : ∀ col, reached col (es ++ [e]) = reached col es := by
    intro col
    simp [reached, List.filterMap_append, appends]
  have wait : ∀ x, (update s.phase c phase x).pending = (s.phase x).pending := by
    intro x
    by_cases moved : x = c
    · rw [moved, update_self, pending]
    · rw [update_of_ne moved]
  refine ⟨fun col => ?_, fun x => ?_, began ▸ inv.nodup, fun col => ?_,
    fun col x => ?_, fun col x => ?_⟩
  · rw [eq, ← inv.values]
    exact vs col
  · rw [began, ← inv.idle]
    by_cases moved : x = c
    · simp [moved, active, later]
    · simp [moved]
  · rw [eq]
    exact inv.once col
  · rw [wait]
    exact inv.own col x
  · rw [eq, began]
    rw [wait]
    exact inv.mem col x

theorem Tracks.log (idle : s.phase c = .idle) :
    Tracks rows ns (es ++ [.log c])
      ⟨s.cs.log (rows c), update s.phase c (.appending (rows c).keys)⟩ := by
  have began : started (es ++ [Event.log c]) = started es ++ [c] := by
    simp [started, List.filterMap_append, Event.logs]
  have eq : ∀ col, reached col (es ++ [Event.log c]) = reached col es := by
    intro col
    simp [reached, List.filterMap_append, Event.appendsTo]
  have new : c ∉ started es := (inv.idle c).mp idle
  refine ⟨fun col => ?_, fun x => ?_, ?_, fun col => ?_, fun col x => ?_, fun col x => ?_⟩
  · rw [eq, ← inv.values]
    rfl
  · rw [began, List.mem_append, not_or, ← inv.idle]
    by_cases moved : x = c
    · simp [moved]
    · simp [moved]
  · rw [began, ← List.concat_eq_append]
    exact inv.nodup.concat new
  · rw [eq]
    exact inv.once col
  · by_cases moved : x = c
    · subst moved
      simp [Phase.pending, mem_keys]
    · simpa [moved] using inv.own col x
  · rw [eq, began, inv.mem, List.mem_append, List.mem_singleton]
    by_cases moved : x = c
    · subst moved
      simp [new, Phase.pending, mem_keys]
    · simp [moved]

variable {col : String}

theorem Tracks.append {left} (phase : s.phase c = .appending left) (wait : col ∈ left)
    (appended : s.cs.append col (cell rows col c) = some cs) :
    Tracks rows ns (es ++ [.append c col])
      ⟨cs, update s.phase c (.appending (left.erase col))⟩ := by
  have began : started (es ++ [Event.append c col]) = started es := by
    simp [started, List.filterMap_append, Event.logs]
  have longer : ∀ name, reached name (es ++ [Event.append c col]) =
      reached name es ++ if col = name then [c] else [] := by
    intro name
    by_cases eq : col = name
    · simp [reached, List.filterMap_append, Event.appendsTo, eq]
    · simp [reached, List.filterMap_append, Event.appendsTo, eq]
  have known : c ∈ started es := by
    by_contra unknown
    rw [← inv.idle, phase] at unknown
    cases unknown
  have absent : c ∉ reached col es := by
    rw [inv.mem, phase]
    exact fun both => both.2.2 wait
  have named : col ∈ rows c := inv.own col c (by rwa [phase])
  refine ⟨fun name => ?_, fun x => ?_, began ▸ inv.nodup, fun name => ?_,
    fun name x => ?_, fun name x => ?_⟩
  · rw [append_valuesOf appended, inv.values, longer]
    by_cases eq : name = col
    · subst eq
      split <;> simp
    · simp only [if_neg eq, if_neg (Ne.symm eq), map_id', List.append_nil]
  · rw [began, ← inv.idle]
    by_cases moved : x = c
    · simp [moved, phase]
    · simp [moved]
  · rw [longer]
    split
    next eq =>
      subst eq
      rw [← List.concat_eq_append]
      exact (inv.once col).concat absent
    · simpa using inv.once name
  · have pre := inv.own name x
    by_cases moved : x = c
    · subst moved
      rw [phase] at pre
      dsimp only
      rw [update_self]
      exact fun waits => pre (Finset.mem_of_mem_erase waits)
    · simpa [moved] using pre
  · rw [longer, began, List.mem_append, inv.mem]
    by_cases moved : x = c
    · subst moved
      by_cases eq : col = name
      · subst eq
        simp [known, named, Phase.pending]
      · simp [eq, phase, Phase.pending, Ne.symm eq]
    · by_cases eq : col = name
      · simp [eq, moved]
      · simp [eq, moved]

theorem tracks_step (took : step rows s e = some t) : Tracks rows ns (es ++ [e]) t := by
  cases e with
  | log c =>
    obtain ⟨idle, rfl⟩ := guard_some.mp took
    exact inv.log idle
  | append c col =>
    rw [step] at took
    split at took
    next left phase =>
      obtain ⟨wait, took⟩ := ite_none_right_eq_some.mp took
      obtain ⟨cs, app, rfl⟩ := map_eq_some_iff.mp took
      exact inv.append phase wait app
    · cases took
  | count c =>
    obtain ⟨phase, rfl⟩ := guard_some.mp took
    exact inv.quiet rfl (fun _ => rfl) (fun _ => rfl) (by simp [phase]) (by simp)
      (by rw [phase]; rfl)
  | signal c =>
    obtain ⟨phase, rfl⟩ := guard_some.mp took
    exact inv.quiet rfl (fun _ => rfl) (signal_valuesOf s.cs) (by simp [phase]) (by simp)
      (by rw [phase]; rfl)

omit inv

theorem tracks_run (run : exec (step rows) (init C ns) es = some s) : Tracks rows ns es s :=
  exec_history (Tracks rows ns) (tracks_init rows ns)
    (fun _ _ _ _ _ inv took => tracks_step inv took) run

omit [DecidableEq C] in
/-- Once no call is under way, every call has reached every column it names, once. -/
theorem reached_perm (inv : Tracks rows ns es s) (finished : Finished s)
    (given : ∀ c ∈ started es, col ∈ rows c) : (reached col es).Perm (started es) := by
  apply (List.perm_ext_iff_of_nodup (inv.once col) inv.nodup).mpr
  intro c
  have done : (s.phase c).pending = ∅ := by
    rcases finished c with idle | returned
    · rw [idle]
      rfl
    · rw [returned]
      rfl
  rw [inv.mem, done]
  constructor
  · exact fun both => both.1
  · exact fun began => ⟨began, given c began, Finset.notMem_empty _⟩

end

section

variable {rows : C → Row A} {ns cols : List String} {es : List (Event C)} {s : State C A}
  (inv : Tracks rows ns es s)
include inv

theorem numRows_tracks (finished : Finished s) (gives : ∀ c, Gives ns (rows c))
    (old : ∀ col ∈ cols, col ∈ ns) (asked : cols ≠ []) :
    s.cs.numRows cols = (started es).length := by
  obtain ⟨front, last, rfl⟩ := List.eq_nil_or_concat cols |>.resolve_left asked
  have column : last ∈ ns := old last (by simp)
  have perm := reached_perm inv finished fun c _ => (gives c).mem column
  rw [Storage.numRows, List.concat_eq_append, List.filterMap_append]
  simp [inv.values, column, perm.length_eq]

theorem rowAt_tracks (old : ∀ col ∈ cols, col ∈ ns) (i row) :
    s.cs.rowAt cols i = restrict cols row ↔ ∀ col ∈ cols,
        (reached col es)[i]?.map (cell rows col) = row.lookup col := by
  have held : ∀ col ∈ cols, s.cs.valuesOf col = some ((reached col es).map (cell rows col)) := by
    intro col asked
    rw [inv.values, if_pos (old col asked)]
  rw [rowAt_eq_restrict_iff held]
  simp only [List.getElem?_map]

/-- When every column was reached in one order, Query returns the rows in that order. -/
theorem query_of_same_order (finished : Finished s) (gives : ∀ c, Gives ns (rows c))
    (old : ∀ col ∈ cols, col ∈ ns) {order} (eq : ∀ col ∈ ns, reached col es = order)
    (some : cols ≠ []) : s.cs.query cols none = order.map fun c => restrict cols (rows c) := by
  have length : (started es).length = order.length := by
    obtain ⟨col, asked⟩ := List.exists_mem_of_ne_nil cols some
    have column := old col asked
    have perm := reached_perm inv finished fun c _ => (gives c).mem column
    rw [← eq col column, perm.length_eq]
  rw [query_all, map_range_eq_map_iff, numRows_tracks inv finished gives old some]
  refine ⟨length, fun i bound => (rowAt_tracks inv old i _).mpr ?_⟩
  intro col asked
  obtain ⟨n, hit⟩ := gives order[i] col (old col asked)
  rw [eq col (old col asked), List.getElem?_eq_getElem bound, Option.map_some, cell, hit, getD_some]

end

section

variable {ns : List String}

def relabel (names : List String) (n : Int) (row : Row A) : Row A :=
  names.foldl (fun row colName => row.insert colName (.int n)) row

theorem lookup_relabel (ns) (n : Int) (row : Row A) (col) :
    (relabel ns n row).lookup col = if col ∈ ns then some (.int n) else row.lookup col := by
  induction ns using List.reverseRecOn with
  | nil => rfl
  | append_singleton ns last ih =>
    rw [relabel, List.foldl_concat, ← relabel, GoMap.lookup_insert_ite, ih]
    by_cases same : col = last
    · simp [same]
    · simp [same]

theorem keys_relabel {n : Int} {row : Row A} (gives : Gives ns row) :
    (relabel ns n row).keys = row.keys := by
  ext col
  rw [mem_keys, mem_keys, ← lookup_isSome, ← lookup_isSome, lookup_relabel]
  split
  next column =>
    rw [lookup_isSome.mpr (gives.mem column)]
    rfl
  · rfl

variable [DecidableEq C] {rows other : C → Row A} {es : List (Event C)} {s : State C A}

/-- Whether a step can happen does not depend on the values, as long as they are ints. -/
theorem step_same_keys (keys : ∀ c, (other c).keys = (rows c).keys)
    (ints : ∀ c, IntsAt ns (other c)) {s' t e}
    (own : ∀ col c, col ∈ (s.phase c).pending → col ∈ rows c) (phase : s'.phase = s.phase)
    (numeric : s'.cs.Numeric ns) (took : step rows s e = some t) :
    ∃ next', step other s' e = some next' ∧ next'.phase = t.phase ∧ next'.cs.Numeric ns := by
  cases e with
  | log c =>
    obtain ⟨idle, rfl⟩ := guard_some.mp took
    refine ⟨_, if_pos (by rw [phase, idle]), ?_, numeric⟩
    rw [phase, keys]
  | append c col =>
    rw [step] at took ⊢
    rw [phase]
    split at took
    next left appending =>
      obtain ⟨wait, took⟩ := ite_none_right_eq_some.mp took
      obtain ⟨cs, -, rfl⟩ := map_eq_some_iff.mp took
      have named : col ∈ other c := by
        rw [← mem_keys, keys, mem_keys]
        exact own col c (by rwa [appending])
      obtain ⟨v, hit⟩ := isSome_iff_exists.mp (lookup_isSome.mpr named)
      obtain ⟨cs', app, held⟩ := append_total numeric fun column =>
        ints c col column v hit
      refine ⟨⟨cs', _⟩, ?_, rfl, held⟩
      rw [if_pos wait, hit, getD_some, app]
      rfl
    · cases took
  | count c =>
    obtain ⟨empty, rfl⟩ := guard_some.mp took
    exact ⟨_, if_pos (by rw [phase, empty]), by dsimp only; rw [phase], numeric⟩
  | signal c =>
    obtain ⟨cnt, rfl⟩ := guard_some.mp took
    refine ⟨_, if_pos (by rw [phase, cnt]), by dsimp only; rw [phase], ?_⟩
    unfold Storage.signal
    split <;> exact numeric

theorem run_same_keys (keys : ∀ c, (other c).keys = (rows c).keys)
    (ints : ∀ c, IntsAt ns (other c)) (run : exec (step rows) (init C ns) es = some s) :
    ∃ s', exec (step other) (init C ns) es = some s' ∧ s'.phase = s.phase := by
  obtain ⟨s', run', phase, -⟩ := exec_history (fun es s => ∃ s' : State C A,
    exec (step other) (init C ns) es = some s' ∧ s'.phase = s.phase ∧
      s'.cs.Numeric ns) ⟨init C ns, rfl, rfl, created_numeric ns⟩ (by
    rintro es state e t pre ⟨s', run', phase, numeric⟩ took
    obtain ⟨next', stepped', eq, held⟩ := step_same_keys keys ints (tracks_run pre).own phase
      numeric took
    exact ⟨next', exec_snoc_some.mpr ⟨s', run', stepped'⟩, eq, held⟩) run
  exact ⟨s', run', phase⟩

end

section

variable [DecidableEq C] {cols ns : List String} {es : List (Event C)} {rows : C → Row A}
  {s : State C A}

/-- Rows that tell their calls apart show which call filled each place of each column. -/
theorem reached_of_labels (all : ∀ col, col ∈ cols ↔ col ∈ ns) (inv : Tracks rows ns es s)
    (labels : ∀ c, ∀ col ∈ ns, (rows c).lookup col = some (.int ((started es).idxOf c))) {i c}
    (shown : s.cs.rowAt cols i = restrict cols (rows c)) {col} (column : col ∈ ns) :
    (reached col es)[i]? = some c := by
  have eq := (rowAt_tracks inv (fun name => (all name).mp) i (rows c)).mp shown col
    ((all col).mpr column)
  rw [labels c col column] at eq
  obtain ⟨d, p, v⟩ := map_eq_some_iff.mp eq
  have began : d ∈ started es :=
    ((inv.mem col d).mp (List.mem_of_getElem? p)).1
  rw [cell, labels d col column, getD_some, Value.int.injEq, Int.natCast_inj,
    List.idxOf_inj began] at v
  rw [p, v]

/-- If all labels come out together, the columns were reached in one order. -/
theorem reached_eq_of_perm (all : ∀ col, col ∈ cols ↔ col ∈ ns)
    (gives : ∀ c, Gives ns (rows c)) (inv : Tracks rows ns es s) (finished : Finished s)
    (labels : ∀ c, ∀ col ∈ ns, (rows c).lookup col = some (.int ((started es).idxOf c)))
    (perm : (s.cs.query cols none).Perm ((started es).map fun c => restrict cols (rows c))) {a b}
    (x : a ∈ ns) (y : b ∈ ns) : reached a es = reached b es := by
  have asked : cols ≠ [] := List.ne_nil_of_mem ((all a).mpr x)
  have length : ∀ col ∈ ns, (reached col es).length = (started es).length :=
    fun col column =>
      (reached_perm inv finished fun c _ => (gives c).mem column).length_eq
  apply List.ext_getElem?
  intro i
  by_cases bound : i < (started es).length
  · have shown : s.cs.rowAt cols i ∈ s.cs.query cols none := by
      rw [query_all, numRows_tracks inv finished gives (fun name => (all name).mp) asked]
      exact List.mem_map_of_mem (List.mem_range.mpr bound)
    obtain ⟨c, -, eq⟩ := List.mem_map.mp (perm.mem_iff.mp shown)
    rw [reached_of_labels all inv labels eq.symm x, reached_of_labels all inv labels eq.symm y]
  · rw [List.getElem?_eq_none (by rw [length a x]; omega),
      List.getElem?_eq_none (by rw [length b y]; omega)]

/-- Whatever ints the rows hold, Query over all columns returns the rows, in some order, exactly
when every column is reached by the calls in one order and there is a column to hold them. -/
theorem rows_intact_iff {names columns : List String} {events : List (Event C)}
    (all : ∀ colName, colName ∈ columns ↔ colName ∈ names) {rows : C → Row A} {s : State C A}
    (gives : ∀ c, Gives names (rows c))
    (run : exec (step rows) (init C names) events = some s) (finished : Finished s) :
    (∀ rows : C → Row A, (∀ c, Gives names (rows c)) → ∀ s,
        exec (step rows) (init C names) events = some s → Finished s →
          (s.cs.query columns none).Perm
            ((started events).map fun c => restrict columns (rows c))) ↔
      (names = [] → started events = []) ∧
        ∀ a ∈ names, ∀ b ∈ names, reached a events = reached b events := by
  have existing : ∀ colName ∈ columns, colName ∈ names := fun colName => (all colName).mp
  have noColumns : names = [] → columns = [] := by
    rintro rfl
    exact List.eq_nil_iff_forall_not_mem.mpr fun colName asked =>
      List.not_mem_nil (existing colName asked)
  constructor
  · intro perms
    constructor
    · intro none
      have perm := perms rows gives s run finished
      rw [noColumns none] at perm
      exact List.map_eq_nil_iff.mp perm.nil_eq.symm
    · intro a first b second
      -- Label every row by its call. The step function allows the same events for these rows.
      let other : C → Row A := fun c => relabel names ((started events).idxOf c) (rows c)
      have labels : ∀ c, ∀ colName ∈ names,
          (other c).lookup colName = some (.int ((started events).idxOf c)) := by
        intro c colName column
        exact (lookup_relabel _ _ _ _).trans (if_pos column)
      have gives' : ∀ c, Gives names (other c) := fun c colName column =>
        ⟨_, labels c colName column⟩
      obtain ⟨s', run', phase⟩ := run_same_keys (fun c => keys_relabel (gives c))
        (fun c => (gives' c).intsAt) run
      have finished' : Finished s' := fun c => phase ▸ finished c
      exact reached_eq_of_perm all gives' (tracks_run run') finished' labels
        (perms other gives' s' run' finished') first second
  · rintro ⟨empty, same⟩ rows gives s run finished
    have tracks := tracks_run run
    cases names with
    | nil =>
      rw [noColumns rfl, empty rfl]
      exact List.Perm.refl _
    | cons a rest =>
      have asked : columns ≠ [] := List.ne_nil_of_mem ((all a).mpr List.mem_cons_self)
      rw [query_of_same_order tracks finished gives existing
        (fun colName column => same colName column a List.mem_cons_self) asked]
      exact (reached_perm tracks finished fun c _ => (gives c).mem List.mem_cons_self).map _

def twoRows (c : Bool) : Row Empty :=
  if c then intRow [("a", 3), ("b", 4)] else intRow [("a", 1), ("b", 2)]

theorem twoRows_gives (c) : Gives ["a", "b"] (twoRows c) := by
  intro col column
  rcases List.mem_pair.mp column with rfl | rfl <;> cases c <;> exact ⟨_, rfl⟩

def overtaking : List (Event Bool) :=
  [.log false, .log true, .append true "a", .append false "a", .append true "b", .count true,
    .append false "b", .signal true, .count false, .signal false]

theorem rows_intact_overtaking :
    ∃ s, exec (step twoRows) (init Bool ["a", "b"]) overtaking = some s ∧ Finished s ∧
      (s.cs.query ["b", "a"] none).Perm
        ([false, true].map fun c => restrict ["b", "a"] (twoRows c)) := by
  have all : ∀ colName, colName ∈ ["b", "a"] ↔ colName ∈ ["a", "b"] := by
    simp [or_comm]
  have run : ∃ s, exec (step twoRows) (init Bool ["a", "b"]) overtaking = some s ∧
      Finished s := by
    refine ⟨_, rfl, fun c => ?_⟩
    cases c <;> exact Or.inr rfl
  obtain ⟨s, run, finished⟩ := run
  refine ⟨s, run, finished, ?_⟩
  have orders : ∀ a ∈ ["a", "b"], ∀ b ∈ ["a", "b"],
      reached a overtaking = reached b overtaking := by
    decide
  exact (rows_intact_iff all twoRows_gives run finished).mpr
    ⟨fun none => absurd none (by decide), orders⟩ twoRows twoRows_gives s run finished

/-- Between the columns: the values of two rows come out crossed. -/
theorem rows_crossed :
    ∃ s, exec (step twoRows) (init Bool ["a", "b"])
        [.log false, .log true, .append false "a", .append true "a", .append true "b",
          .append false "b", .count false, .count true, .signal false, .signal true] = some s ∧
      Finished s ∧
      s.cs.query ["a", "b"] none = [intRow [("a", 1), ("b", 4)], intRow [("a", 3), ("b", 2)]] ∧
      ¬ (s.cs.query ["a", "b"] none).Perm [twoRows false, twoRows true] := by
  refine ⟨_, rfl, ?_, by decide, by decide⟩
  intro c
  cases c <;> exact Or.inr rfl

end

end AsyncPractice.ColumnarStorage
