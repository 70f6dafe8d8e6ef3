import AsyncPractice.DistributedTimeSeries

/- Calls of getShard that run side by side, on their own or as the first part of Write and
DistributedQuery. Each of them looks the series up, then picks a shard and counts it in one
critical section, then records it in another. -/
namespace AsyncPractice.DistributedTimeSeries

open Option List Function Runs

section

variable {V : Type}

def storeAt (dts : Store V) (shardID : Nat) (call : WriteCall V) : Option (Store V) :=
  dts.shards[shardID]?.map fun shard =>
    let series := (shard.data.lookup call.seriesName).getD newShardSeries
    let series := (series.append call.point).applyRetention call.now
    { dts with shards := dts.shards.set shardID ⟨shard.data.insert call.seriesName series⟩ }

def readAt (sort : List (DataPoint V) → List (DataPoint V)) (dts : Store V) (shardID : Nat)
    (seriesName : String) (start stop : Int) : Option (List (DataPoint V)) :=
  dts.shards[shardID]?.map fun shard =>
    match shard.data.lookup seriesName with
    | none => sort []
    | some series => sort (queryShard series start stop)

theorem distributedQuery_eq (sort) (dts : Store V) (name) (start stop : Int) :
    distributedQuery sort dts name start stop = (getShard dts name).bind fun (dts, id) =>
        (readAt sort dts id name start stop).map fun results => (dts, results) := by
  unfold distributedQuery readAt
  congr 1
  funext ⟨dts, id⟩
  dsimp only
  rw [Option.map_map]
  congr 1
  funext shard
  dsimp only [comp_apply]
  cases shard.data.lookup name <;> rfl

def Holds (dts : Store V) (shardID : Nat) (seriesName : String) : Prop :=
  ∃ shard, dts.shards[shardID]? = some shard ∧ (shard.data.lookup seriesName).isSome

variable {dts after : Store V} {id : Nat} {c : WriteCall V}

theorem seriesMapping_storeAt (stored : storeAt dts id c = some after) :
    after.seriesMapping = dts.seriesMapping := by
  obtain ⟨shard, -, rfl⟩ := map_eq_some_iff.mp stored
  rfl

theorem holds_storeAt (stored : storeAt dts id c = some after) {i name}
    (held : Holds after i name) : Holds dts i name ∨ (name = c.seriesName ∧ i = id) := by
  obtain ⟨shard, hit, rfl⟩ := map_eq_some_iff.mp stored
  obtain ⟨shard', found, held⟩ := held
  rw [getElem?_set] at found
  split at found
  next eq =>
    split at found <;> cases found
    rw [GoMap.lookup_insert_ite] at held
    split at held
    next equal =>
      exact .inr ⟨equal, eq.symm⟩
    · exact .inl ⟨shard, eq ▸ hit, held⟩
  · exact .inl ⟨shard', found, held⟩

end

/-- What a call of getShard is for. -/
inductive Purpose (V : Type)
  | none
  | write (point : DataPoint V) (now : Int)
  | query (start stop : Int)

/-- Where a call stands, from `routed` on with the shard that getShard has returned. -/
inductive Phase (V : Type)
  | idle
  | missed (seriesName : String) (purpose : Purpose V)
  | chosen (seriesName : String) (purpose : Purpose V) (minShard : Nat)
  | routed (seriesName : String) (purpose : Purpose V) (shardID : Nat)
  | finished

/-- `returned` is what the calls of getShard have returned so far, `written` are the points of the
writes that are complete, with the shards they went to. -/
structure State (C V : Type) where
  dts : Store V
  phase : C → Phase V
  returned : List (String × Nat)
  written : List (String × DataPoint V × Nat)

inductive Event (C V : Type)
  | lookup (c : C) (seriesName : String) (purpose : Purpose V)
  | choose (c : C)
  | record (c : C)
  | store (c : C)
  | read (c : C)

variable {C V : Type} [DecidableEq C]

def init (C : Type) (dts : Store V) : State C V := ⟨dts, fun _ => .idle, [], []⟩

def State.become (s : State C V) (c : C) (phase : Phase V) : State C V :=
  { s with phase := update s.phase c phase }

def State.route (s : State C V) (c : C) (seriesName : String) (purpose : Purpose V)
    (shardID : Nat) : State C V :=
  { s with
    phase := update s.phase c (.routed seriesName purpose shardID)
    returned := s.returned ++ [(seriesName, shardID)] }

def step (s : State C V) : Event C V → Option (State C V)
  | .lookup c seriesName purpose =>
    match s.phase c with
    | .idle =>
      some (match s.dts.seriesMapping.lookup seriesName with
        | some shardID => s.route c seriesName purpose shardID
        | none => s.become c (.missed seriesName purpose))
    | _ => none
  | .choose c =>
    match s.phase c with
    | .missed seriesName purpose =>
      if s.dts.shardLoads.length = 0 then none
      else
        let minShard := minShard s.dts.shardLoads s.dts.numShards
        let shardLoads := s.dts.shardLoads.modify minShard (· + 1)
        some ({ s with dts := { s.dts with shardLoads } }.become c
          (.chosen seriesName purpose minShard))
    | _ => none
  | .record c =>
    match s.phase c with
    | .chosen seriesName purpose minShard =>
      let seriesMapping := s.dts.seriesMapping.insert seriesName minShard
      some ({ s with dts := { s.dts with seriesMapping } }.route c seriesName purpose minShard)
    | _ => none
  | .store c =>
    match s.phase c with
    | .routed seriesName (.write point now) shardID =>
      (storeAt s.dts shardID ⟨seriesName, point, now⟩).map fun dts =>
        { s with dts, written := s.written ++ [(seriesName, point, shardID)] }.become c
          .finished
    | _ => none
  | .read c =>
    match s.phase c with
    | .routed seriesName (.query start stop) shardID =>
      (readAt id s.dts shardID seriesName start stop).map fun _ => s.become c .finished
    | _ => none

section

variable {s : State C V} {c : C} {name : String} {purpose : Purpose V}

theorem step_choose (ne : s.dts.shardLoads.length ≠ 0) (missed : s.phase c = .missed name purpose) :
    step s (.choose c) = some ({ s with dts := { s.dts with
      shardLoads := s.dts.shardLoads.modify (minShard s.dts.shardLoads s.dts.numShards)
        (· + 1) } }.become c (.chosen name purpose
          (minShard s.dts.shardLoads s.dts.numShards))) := by
  simp only [step, missed, if_neg ne]

theorem step_record {minShard} (chosen : s.phase c = .chosen name purpose minShard) :
    step s (.record c) = some ({ s with dts := { s.dts with
      seriesMapping := s.dts.seriesMapping.insert name minShard } }.route c name
        purpose minShard) := by
  simp only [step, chosen]

variable {dts : Store V}

/-- A getShard that nothing interrupts is the sequential one. -/
theorem getShard_exec (idle : s.phase c = .idle) (purpose) {shardID}
    (called : getShard s.dts name = some (dts, shardID)) :
    ∃ events next, exec step s events = some next ∧ next.dts = dts ∧
      next.phase c = .routed name purpose shardID := by
  unfold getShard at called
  split at called
  next found hit =>
    cases called
    have look : step s (.lookup c name purpose) = some (s.route c name purpose shardID) := by
      simp only [step, idle, hit]
    exact ⟨_, _, exec_cons_some.mpr ⟨_, look, exec_nil ..⟩, rfl, update_self ..⟩
  next absent =>
    obtain ⟨ne, called⟩ := ite_none_left_eq_some.mp called
    cases called
    have look : step s (.lookup c name purpose) = some (s.become c (.missed name purpose)) := by
      simp only [step, idle, absent]
    have chosen := step_choose (s := s.become c (.missed name purpose)) ne (update_self ..)
    exact ⟨_, _, exec_cons_some.mpr ⟨_, look, exec_cons_some.mpr ⟨_, chosen, exec_cons_some.mpr
      ⟨_, step_record (update_self ..), exec_nil ..⟩⟩⟩, rfl, update_self ..⟩

/-- A write that runs alone takes the steps of a write among others. -/
theorem write_exec (idle : s.phase c = .idle) {call} (called : write s.dts call = some dts) :
    ∃ es next, exec step s es = some next ∧ next.dts = dts ∧ next.phase c = .finished := by
  obtain ⟨⟨between, id⟩, given, stored⟩ := bind_eq_some_iff.mp called
  obtain ⟨es, mid, run, rfl, inv⟩ :=
    getShard_exec idle (.write call.point call.now) given
  have took : step mid (.store c) = some ({ mid with
      dts, written := mid.written ++ [(call.seriesName, call.point, id)] }.become c .finished) := by
    simp only [step, inv]
    exact map_eq_some_iff.mpr ⟨dts, stored, rfl⟩
  exact ⟨_, _, exec_snoc_some.mpr ⟨mid, run, took⟩, rfl, update_self ..⟩

theorem write_exec_first :
    ∃ es s, exec step (init Unit (newDistributedTimeSeries 2)) es = some s ∧
      storedPoints s.dts "cpu" = [⟨1, 42⟩] := by
  have called : write (newDistributedTimeSeries 2) ⟨"cpu", ⟨1, 42⟩, 5⟩ = some _ := rfl
  obtain ⟨es, s, run, stored, -⟩ := write_exec (s := init Unit (newDistributedTimeSeries 2))
    (c := ()) rfl called
  exact ⟨es, s, run, stored ▸ by decide⟩

/-- The results are those of the shard that the query is routed to. -/
theorem distributedQuery_exec (idle : s.phase c = .idle) {sort start stop results}
    (called : distributedQuery sort s.dts name start stop = some (dts, results)) :
    ∃ es t id, exec step s es = some t ∧ t.dts = dts ∧
      t.phase c = .routed name (.query start stop) id ∧
        readAt sort t.dts id name start stop = some results := by
  rw [distributedQuery_eq] at called
  obtain ⟨⟨between, id⟩, given, mapped⟩ := bind_eq_some_iff.mp called
  obtain ⟨read, hit, eq⟩ := map_eq_some_iff.mp mapped
  cases eq
  obtain ⟨es, t, run, rfl, inv⟩ := getShard_exec idle (.query start stop) given
  exact ⟨es, t, id, run, rfl, inv, hit⟩

theorem distributedQuery_exec_missing :
    ∃ es s shard, exec step (init Unit (newDistributedTimeSeries 2 : Store Nat)) es = some s ∧
      s.phase () = .routed "cpu" (.query 0 9) shard ∧
        readAt id s.dts shard "cpu" 0 9 = some [] := by
  have called : distributedQuery id (newDistributedTimeSeries 2 : Store Nat) "cpu" 0 9 = some _ :=
    rfl
  obtain ⟨es, s, shard, run, -, routed⟩ :=
    distributedQuery_exec (s := init Unit (newDistributedTimeSeries 2)) (c := ()) rfl called
  exact ⟨es, s, shard, run, routed⟩

end

inductive Moves (s : State C V) : Event C V → State C V → Prop
  | found {c : C} {seriesName : String} {purpose : Purpose V} {shardID : Nat}
      (mapped : s.dts.seriesMapping.lookup seriesName = some shardID) :
      Moves s (.lookup c seriesName purpose) (s.route c seriesName purpose shardID)
  | missed {c : C} {seriesName : String} {purpose : Purpose V} :
      Moves s (.lookup c seriesName purpose) (s.become c (.missed seriesName purpose))
  | choose {c : C} {seriesName : String} {purpose : Purpose V} {minShard : Nat}
      {shardLoads : List Int64} :
      Moves s (.choose c) ({ s with dts := { s.dts with shardLoads } }.become c
        (.chosen seriesName purpose minShard))
  | record {c : C} {seriesName : String} {purpose : Purpose V} {minShard : Nat}
      (chosen : s.phase c = .chosen seriesName purpose minShard) :
      Moves s (.record c) ({ s with dts := { s.dts with
        seriesMapping := s.dts.seriesMapping.insert seriesName minShard } }.route c seriesName
          purpose minShard)
  | store {c : C} {seriesName : String} {point : DataPoint V} {now : Int} {shardID : Nat}
      {dts : Store V} (routed : s.phase c = .routed seriesName (.write point now) shardID)
      (stored : storeAt s.dts shardID ⟨seriesName, point, now⟩ = some dts) :
      Moves s (.store c) ({ s with dts, written := s.written ++ [(seriesName, point, shardID)]
        }.become c .finished)
  | read {c : C} : Moves s (.read c) (s.become c .finished)

theorem moves_of_step {s t : State C V} {e : Event C V} (took : step s e = some t) :
    Moves s e t := by
  cases e with
  | lookup c name purpose =>
    simp only [step] at took
    split at took <;> cases took
    split
    next shardID mapped =>
      exact .found mapped
    · exact .missed
  | choose c =>
    simp only [step] at took
    split at took
    · obtain ⟨-, moved⟩ := ite_none_left_eq_some.mp took
      exact some.inj moved ▸ .choose
    · cases took
  | record c =>
    simp only [step] at took
    split at took
    next name purpose minShard chosen =>
      exact some.inj took ▸ .record chosen
    · cases took
  | store c =>
    simp only [step] at took
    split at took
    next name point now shardID routed =>
      obtain ⟨dts, stored, rfl⟩ := map_eq_some_iff.mp took
      exact .store routed stored
    · cases took
  | read c =>
    simp only [step] at took
    split at took
    · obtain ⟨results, -, rfl⟩ := map_eq_some_iff.mp took
      exact .read
    · cases took

/-- All calls of getShard for one series have returned one shard. -/
def Agrees (s : State C V) : Prop :=
  ∀ first ∈ s.returned, ∀ second ∈ s.returned, first.1 = second.1 → first.2 = second.2

/-- A query that has its shard reads the one that every complete write of its series went to, and
no other shard has points of the series. -/
def Visible (s : State C V) : Prop :=
  ∀ c seriesName start stop shardID,
    s.phase c = .routed seriesName (.query start stop) shardID →
      (∀ point shardID', (seriesName, point, shardID') ∈ s.written → shardID' = shardID) ∧
        ∀ shardID', Holds s.dts shardID' seriesName → shardID' = shardID

/-- A call that records its shard does not replace another one. -/
def Undisturbed (s : State C V) : Event C V → Prop
  | .record c => ∀ seriesName purpose minShard,
      s.phase c = .chosen seriesName purpose minShard →
        ∀ shardID, s.dts.seriesMapping.lookup seriesName = some shardID → shardID = minShard
  | _ => True

/-- The mapping is what the calls have returned. -/
structure Routes (s : State C V) : Prop where
  mapped : ∀ route ∈ s.returned, s.dts.seriesMapping.lookup route.1 = some route.2
  known : ∀ seriesName shardID, s.dts.seriesMapping.lookup seriesName = some shardID →
    (seriesName, shardID) ∈ s.returned
  routed : ∀ c seriesName purpose shardID, s.phase c = .routed seriesName purpose shardID →
    (seriesName, shardID) ∈ s.returned
  written : ∀ point ∈ s.written, (point.1, point.2.2) ∈ s.returned
  held : ∀ shardID seriesName, Holds s.dts shardID seriesName → (seriesName, shardID) ∈ s.returned

section

variable {s t : State C V} {e : Event C V}

omit [DecidableEq C] in
theorem Routes.agrees (routes : Routes s) : Agrees s := by
  intro x mem y member' eq
  have one := routes.mapped x mem
  rw [eq, routes.mapped y member'] at one
  exact (some.inj one).symm

variable (routes : Routes s)
include routes

omit [DecidableEq C] in
theorem Routes.visible : Visible s := by
  intro c name start stop id inv
  have given := routes.routed c name _ id inv
  constructor
  · intro p shardID' stored
    exact routes.agrees _ (routes.written _ stored) _ given rfl
  · intro shardID' held
    exact routes.agrees _ (routes.held shardID' name held) _ given rfl

variable {c : C} {dts : Store V}

theorem Routes.become {phase written} (mapping : dts.seriesMapping = s.dts.seriesMapping)
    (wait : ∀ name purpose id, phase ≠ .routed name purpose id)
    (stored : ∀ point ∈ written, (point.1, point.2.2) ∈ s.returned)
    (held : ∀ id name, Holds dts id name → (name, id) ∈ s.returned) :
    Routes ({ s with dts, written }.become c phase) := by
  refine ⟨?_, ?_, ?_, stored, held⟩
  · intro route mem
    dsimp only [State.become]
    rw [mapping]
    exact routes.mapped route mem
  · intro name id hit
    dsimp only [State.become] at hit
    rw [mapping] at hit
    exact routes.known name id hit
  · intro c' name purpose id inv
    dsimp only [State.become] at inv
    by_cases same : c' = c
    · rw [same, update_self] at inv
      exact absurd inv (wait _ _ _)
    · rw [update_of_ne same] at inv
      exact routes.routed c' name purpose id inv

theorem Routes.route {seriesName} (purpose) {shardID}
    (mapping : ∀ name, dts.seriesMapping.lookup name =
      if name = seriesName then some shardID else s.dts.seriesMapping.lookup name)
    (shards : dts.shards = s.dts.shards)
    (pre : ∀ old, s.dts.seriesMapping.lookup seriesName = some old → old = shardID) :
    Routes ({ s with dts }.route c seriesName purpose shardID) := by
  refine ⟨?_, ?_, ?_, ?_, ?_⟩
  · intro route mem
    dsimp only [State.route] at mem ⊢
    rw [mapping]
    rcases mem_append.mp mem with earlier | new
    · have hit := routes.mapped route earlier
      split
      next eq =>
        rw [eq] at hit
        rw [pre _ hit]
      · exact hit
    · rw [mem_singleton.mp new, if_pos rfl]
  · intro name x hit
    dsimp only [State.route] at hit ⊢
    rw [mapping] at hit
    split at hit
    next eq =>
      rw [eq, ← some.inj hit]
      exact mem_append_right _ (mem_singleton_self _)
    · exact mem_append_left _ (routes.known name x hit)
  · intro c' name purpose' x inv
    dsimp only [State.route] at inv ⊢
    by_cases eq : c' = c
    · rw [eq, update_self] at inv
      obtain ⟨rfl, -, rfl⟩ := Phase.routed.inj inv
      exact mem_append_right _ (mem_singleton_self _)
    · rw [update_of_ne eq] at inv
      exact mem_append_left _ (routes.routed c' name purpose' x inv)
  · intro p stored
    exact mem_append_left _ (routes.written p stored)
  · intro x name held
    dsimp only [State.route, Holds] at held
    rw [shards] at held
    exact mem_append_left _ (routes.held x name held)

theorem Routes.after (undisturbed : Undisturbed s e) (took : step s e = some t) : Routes t := by
  cases moves_of_step took with
  | found mapped =>
    refine routes.route _ ?_ rfl ?_
    · intro name
      split
      next eq =>
        rw [eq, mapped]
      · rfl
    · intro old hit
      exact some.inj (hit.symm.trans mapped)
  | missed | choose | read =>
    exact routes.become rfl (fun _ _ _ => nofun) routes.written routes.held
  | record chosen =>
    exact routes.route _ (fun name => GoMap.lookup_insert_ite _ _ name _) rfl
      (undisturbed _ _ _ chosen)
  | @store c seriesName p now id dts inv stored =>
    have given := routes.routed c seriesName _ id inv
    refine routes.become (seriesMapping_storeAt stored) (fun _ _ _ => nofun) ?_ ?_
    · exact forall_mem_snoc routes.written given
    · intro x name held
      rcases holds_storeAt stored held with before | ⟨rfl, rfl⟩
      · exact routes.held x name before
      · exact given

theorem Routes.undisturbed (inv : ∀ t, step s e = some t → Agrees t) : Undisturbed s e := by
  cases e with
  | record c =>
    intro name purpose minShard chosen id hit
    refine inv _ (step_record chosen) (name, id) ?_ (name, minShard) ?_ rfl
    · exact mem_append_left _ (routes.known name id hit)
    · exact mem_append_right _ (mem_singleton_self _)
  | lookup c name purpose => trivial
  | choose c => trivial
  | store c => trivial
  | read c => trivial

omit routes

omit [DecidableEq C] in
theorem init_routes (n : Nat) :
    Routes (init C (newDistributedTimeSeries (V := V) n)) where
  mapped route mem := by cases mem
  known seriesName shardID present := by
    cases present
  routed c seriesName purpose shardID routed := by cases routed
  written point stored := by cases stored
  held shardID seriesName held := by
    obtain ⟨shard, hit, held⟩ := held
    rw [(mem_replicate.mp (mem_of_getElem? hit)).2, Finmap.lookup_empty] at held
    cases held

end

def crossing : List (Event Nat Nat) :=
  [.lookup 0 "cpu" (.write ⟨1, 42⟩ 0), .lookup 1 "cpu" (.write ⟨2, 43⟩ 0), .choose 0, .choose 1,
    .record 0, .record 1, .store 0, .lookup 2 "cpu" (.query 0 10)]

end AsyncPractice.DistributedTimeSeries
