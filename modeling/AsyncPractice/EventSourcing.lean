import AsyncPractice.GoMap
import AsyncPractice.MachineInt
import AsyncPractice.Pool
import AsyncPractice.Runs

/- createUser and updateUser of solution3_EventSourcingCQRS in challenge12_solution.go, for commands
that run side by side. A command appends its event under the lock of the store and projects it under
that of the read model, in two steps. The store keeps the events as they were appended. -/
namespace AsyncPractice.EventSourcing

open Option List Runs

inductive EventType
  | userCreated
  | userUpdated
  | userDeleted

/-- What the commands put into the data of an event, and anything else that a caller does. -/
inductive Value (X : Type)
  | text (s : String)
  | time (t : Int)
  | any (x : X)

abbrev Data (X : Type) := GoMap String (Value X)

structure Event (X : Type) where
  id : String
  type : EventType
  aggregateID : String
  timestamp : Int
  version : Int64
  data : Data X

structure EventStore (X : Type) where
  events : List (Event X)
  version : Int64

structure ReadModel (X : Type) where
  users : GoMap String (Data X)
  userVersions : GoMap String Int64

/-- The clock as a command reads it, for the data and in appendEvent. -/
structure Reading where
  stamp : Int
  nanos : Int
  timestamp : Int

variable {X : Type}

def appendEvent (store : EventStore X) (type : EventType) (aggregateID : String) (data : Data X)
    (reading : Reading) : EventStore X × Event X :=
  let version := store.version + 1
  let event : Event X :=
    { id := "evt_" ++ toString reading.nanos
      type, aggregateID, version, data
      timestamp := reading.timestamp }
  (⟨store.events ++ [event], version⟩, event)

/-- The merge of an update assigns every key of the data. -/
def projectEvent (model : ReadModel X) (event : Event X) : ReadModel X :=
  match event.type with
  | .userCreated =>
    { users := model.users.insert event.aggregateID event.data
      userVersions := model.userVersions.insert event.aggregateID event.version }
  | .userUpdated =>
    match model.users.lookup event.aggregateID with
    | some existing =>
      { users := model.users.insert event.aggregateID (event.data ∪ existing)
        userVersions := model.userVersions.insert event.aggregateID event.version }
    | none => model
  | .userDeleted =>
    { users := model.users.erase event.aggregateID
      userVersions := model.userVersions.erase event.aggregateID }

inductive Command (X : Type)
  | createUser (userID name email : String)
  | updateUser (userID : String) (updates : Data X)

/-- A command that has not begun, has appended its event, or is over. -/
inductive Call (X : Type)
  | command (command : Command X)
  | appended (event : Event X)
  | done

structure State (X : Type) where
  store : EventStore X
  readModel : ReadModel X
  calls : List (Call X)

def emptyModel : ReadModel X := ⟨∅, ∅⟩

def start : State X := ⟨⟨[], 0⟩, emptyModel, []⟩

inductive Act (X : Type)
  | begin (command : Command X)
  | advance (i : Nat) (reading : Reading)

def runCommand (store : EventStore X) (command : Command X) (reading : Reading) :
    EventStore X × Event X :=
  match command with
  | .createUser userID name email =>
    let data : Data X := (((∅ : Data X).insert "name" (.text name)).insert "email"
      (.text email)).insert "created_at" (.time reading.stamp)
    appendEvent store .userCreated userID data reading
  | .updateUser userID updates =>
    appendEvent store .userUpdated userID (updates.insert "updated_at" (.time reading.stamp))
      reading

def step (s : State X) : Act X → Option (State X)
  | .begin command => some { s with calls := s.calls ++ [.command command] }
  | .advance i reading =>
    match s.calls[i]? with
    | some (.command command) =>
      let (store, event) := runCommand s.store command reading
      some { s with store, calls := s.calls.set i (.appended event) }
    | some (.appended event) =>
      some { s with
        readModel := projectEvent s.readModel event
        calls := s.calls.set i .done }
    | _ => none

/-- The model that the events give when they are projected one after another. -/
def replay (events : List (Event X)) : ReadModel X := events.foldl projectEvent emptyModel

def Call.isDone : Call X → Bool
  | .done => true
  | _ => false

def State.Finished (s : State X) : Prop := ∀ call ∈ s.calls, call.isDone = true

/-- No version of a user decreases. -/
def Advances (s : State X) (act : Act X) : Prop :=
  ∀ next, step s act = some next → ∀ userID version later,
    s.readModel.userVersions.lookup userID = some version →
    next.readModel.userVersions.lookup userID = some later → version ≤ later

/-- A command projects its event when no earlier event of the user waits to be projected. -/
def InTurn (s : State X) : Act X → Prop
  | .begin _ => True
  | .advance i _ => ∀ event, s.calls[i]? = some (.appended event) →
      ∀ other, .appended other ∈ s.calls → other.aggregateID = event.aggregateID →
        event.version ≤ other.version

section

def view (model : ReadModel X) (userID : String) : Option (Data X) × Option Int64 :=
  (model.users.lookup userID, model.userVersions.lookup userID)

def applyView (seen : Option (Data X) × Option Int64) (event : Event X) :
    Option (Data X) × Option Int64 :=
  match event.type with
  | .userCreated => (some event.data, some event.version)
  | .userUpdated =>
    match seen.1 with
    | some existing => (some (event.data ∪ existing), some event.version)
    | none => seen
  | .userDeleted => (none, none)

def isOf (userID : String) (event : Event X) : Bool := event.aggregateID = userID

theorem isOf_self (e : Event X) : isOf e.aggregateID e = true := decide_eq_true rfl

theorem view_project (model) (e : Event X) (userID) :
    view (projectEvent model e) userID =
      if isOf userID e then applyView (view model userID) e else view model userID := by
  unfold isOf
  by_cases own : e.aggregateID = userID
  · subst own
    simp only [decide_true, if_true, view, projectEvent, applyView]
    cases e.type with
    | userCreated => simp
    | userUpdated => cases existing : model.users.lookup e.aggregateID <;> simp [existing]
    | userDeleted => simp
  · have ne : userID ≠ e.aggregateID := Ne.symm own
    simp only [own, decide_false, Bool.false_eq_true, if_false, view, projectEvent]
    cases e.type with
    | userCreated => simp [ne]
    | userUpdated => cases model.users.lookup e.aggregateID <;> simp [ne]
    | userDeleted => simp [ne]

theorem view_replay (es : List (Event X)) (userID) :
    view (replay es) userID = (es.filter (isOf userID)).foldl applyView (none, none) := by
  induction es using reverseRecOn with
  | nil => rfl
  | append_singleton es e ih =>
    have last : replay (es ++ [e]) = projectEvent (replay es) e :=
      foldl_concat ..
    rw [last, view_project, ih, filter_append, foldl_append]
    cases own : isOf userID e <;> simp [own]

theorem readModel_ext {model x : ReadModel X}
    (eq : ∀ userID, view model userID = view x userID) : model = x := by
  have users : model.users = x.users :=
    Finmap.ext_lookup fun userID => congrArg Prod.fst (eq userID)
  have versions : model.userVersions = x.userVersions :=
    Finmap.ext_lookup fun userID => congrArg Prod.snd (eq userID)
  cases model
  cases x
  simp_all

/-- The version of a user is the version of one of the user's events. -/
theorem version_of_fold (es : List (Event X)) {version}
    (seen : (es.foldl applyView (none, none)).2 = some version) :
    ∃ e ∈ es, e.version = version := by
  induction es using reverseRecOn with
  | nil => cases seen
  | append_singleton es e ih =>
    rw [foldl_concat] at seen
    have pre : (es.foldl applyView (none, none)).2 = some version ∨ e.version = version := by
      unfold applyView at seen
      split at seen
      · exact .inr (some.inj seen)
      · split at seen
        · exact .inr (some.inj seen)
        · exact .inl seen
      · cases seen
    rcases pre with pre | own
    · obtain ⟨earlier, mem, eq⟩ := ih pre
      exact ⟨earlier, mem_append_left _ mem, eq⟩
    · exact ⟨e, mem_append_right _ (mem_singleton_self e), own⟩

end

section

def Call.waiting : Call X → Option (Event X)
  | .appended event => some event
  | _ => none

variable {e : Event X}

theorem mem_waiting {cs : List (Call X)} : e ∈ cs.filterMap Call.waiting ↔ .appended e ∈ cs := by
  rw [mem_filterMap]
  constructor
  · rintro ⟨c, mem, carried⟩
    cases c with
    | appended x =>
      cases carried
      exact mem
    | command _ => cases carried
    | done => cases carried
  · intro mem
    exact ⟨_, mem, rfl⟩

/-- The events of each user are those the model has been through, in order, and those that wait. -/
structure Follows (s : State X) : Prop where
  counted : s.store.version.toInt = s.store.events.length
  bounded : ∀ event ∈ s.store.events, event.version ≤ s.store.version
  sorted : s.store.events.Pairwise fun first second => first.version < second.version
  divided : ∀ userID, ∃ passed left, s.store.events.filter (isOf userID) = passed ++ left ∧
    view s.readModel userID = passed.foldl applyView (none, none) ∧
    ((s.calls.filterMap Call.waiting).filter (isOf userID)).Perm left

theorem start_follows : Follows (start : State X) := by
  refine ⟨rfl, by simp [start], List.Pairwise.nil, fun userID => ⟨[], [], rfl, rfl, ?_⟩⟩
  exact List.Perm.nil

variable {s t : State X} {i : Nat}

theorem Follows.append (follows : Follows s) (few : s.store.events.length + 1 < 2 ^ 63) {command}
    (here : s.calls[i]? = some (.command command)) (inv : e.version = s.store.version + 1) :
    Follows { s with
      store := ⟨s.store.events ++ [e], s.store.version + 1⟩
      calls := s.calls.set i (.appended e) } := by
  have cnt := follows.counted
  have grown : (s.store.version + 1).toInt = s.store.version.toInt + 1 :=
    MachineInt.toInt_add_one (by omega)
  have above : ∀ x ∈ s.store.events, x.version < e.version := by
    intro x mem
    have below := Int64.le_iff_toInt_le.mp (follows.bounded x mem)
    rw [inv, Int64.lt_iff_toInt_lt]
    omega
  refine ⟨?_, ?_, ?_, ?_⟩
  · rw [grown, cnt, length_append]
    rfl
  · refine forall_mem_snoc (fun x pre => ?_) (inv ▸ Int64.le_refl _)
    exact inv ▸ Int64.le_of_lt (above x pre)
  · refine pairwise_append.mpr ⟨follows.sorted, pairwise_singleton _ _, ?_⟩
    intro x pre last mem
    rw [mem_singleton.mp mem]
    exact above x pre
  · intro userID
    obtain ⟨ok, left, split, seen, waits⟩ := follows.divided userID
    have carried : (e :: s.calls.filterMap Call.waiting).Perm
        ((s.calls.set i (.appended e)).filterMap Call.waiting) :=
      Pool.filterMap_moved here (.appended e) Call.waiting
    refine ⟨ok, left ++ [e].filter (isOf userID), ?_, seen, ?_⟩
    · rw [filter_append, split, append_assoc]
    · refine (carried.filter (isOf userID)).symm.trans ?_
      rw [← singleton_append, filter_append]
      exact perm_append_comm.trans (waits.append_right _)

theorem first_left {ok left waits : List (Event X)}
    (sorted : (ok ++ left).Pairwise fun x y => x.version < y.version) (eq : waits.Perm left)
    (mem : e ∈ waits) (x : ∀ other ∈ waits, e.version ≤ other.version) :
    ∃ rest, left = e :: rest := by
  cases left with
  | nil => exact absurd (eq.mem_iff.mp mem) not_mem_nil
  | cons head rest =>
    rcases mem_cons.mp (eq.mem_iff.mp mem) with rfl | later
    · exact ⟨rest, rfl⟩
    · have pre := (pairwise_cons.mp (pairwise_append.mp sorted).2.1).1 e later
      have after := x head (eq.mem_iff.mpr mem_cons_self)
      exact (Int64.lt_irrefl (Int64.lt_of_lt_of_le pre after)).elim

theorem Follows.turn (inv : Follows s) (here : s.calls[i]? = some (.appended e))
    (x : ∀ other, .appended other ∈ s.calls → other.aggregateID = e.aggregateID →
      e.version ≤ other.version) :
    ∃ ok rest, s.store.events.filter (isOf e.aggregateID) = ok ++ e :: rest ∧
      view s.readModel e.aggregateID = ok.foldl applyView (none, none) ∧
      (((s.calls.set i .done).filterMap Call.waiting).filter (isOf e.aggregateID)).Perm
        rest := by
  obtain ⟨ok, left, split, seen, waits⟩ := inv.divided e.aggregateID
  have own := isOf_self e
  have mem : e ∈ (s.calls.filterMap Call.waiting).filter (isOf e.aggregateID) :=
    mem_filter.mpr ⟨mem_waiting.mpr (mem_of_getElem? here), own⟩
  have sorted := inv.sorted.filter (isOf e.aggregateID)
  rw [split] at sorted
  obtain ⟨rest, rfl⟩ := first_left sorted waits mem fun other hit => by
    obtain ⟨hit, named⟩ := mem_filter.mp hit
    exact x other (mem_waiting.mp hit) (of_decide_eq_true named)
  have carried : (s.calls.filterMap Call.waiting).Perm
      (e :: (s.calls.set i .done).filterMap Call.waiting) :=
    Pool.filterMap_moved here .done Call.waiting
  refine ⟨ok, rest, split, seen, ?_⟩
  have fewer := carried.filter (isOf e.aggregateID)
  rw [filter_cons, if_pos own] at fewer
  exact (fewer.symm.trans waits).cons_inv

theorem Follows.project (inv : Follows s) (here : s.calls[i]? = some (.appended e))
    (x : ∀ other, .appended other ∈ s.calls → other.aggregateID = e.aggregateID →
      e.version ≤ other.version) :
    Follows { s with
      readModel := projectEvent s.readModel e
      calls := s.calls.set i .done } := by
  refine ⟨inv.counted, inv.bounded, inv.sorted, fun userID => ?_⟩
  rw [view_project]
  by_cases own : e.aggregateID = userID
  · subst own
    obtain ⟨ok, rest, split, seen, waits⟩ := inv.turn here x
    refine ⟨ok ++ [e], rest, ?_, ?_, waits⟩
    · rw [split, append_assoc]
      rfl
    · rw [if_pos (isOf_self e), seen, foldl_concat]
  · obtain ⟨ok, left, split, seen, waits⟩ := inv.divided userID
    have other : isOf userID e = false := decide_eq_false own
    have carried : (s.calls.filterMap Call.waiting).Perm
        (e :: (s.calls.set i .done).filterMap Call.waiting) :=
      Pool.filterMap_moved here .done Call.waiting
    have fewer := carried.filter (isOf userID)
    rw [filter_cons, other, if_neg Bool.false_ne_true] at fewer
    refine ⟨ok, left, split, ?_, fewer.symm.trans waits⟩
    rw [other, if_neg Bool.false_ne_true]
    exact seen

theorem runCommand_append (store command reading) :
    ∃ e : Event X, runCommand store command reading =
      (⟨store.events ++ [e], store.version + 1⟩, e) ∧
      e.version = store.version + 1 := by
  cases command with
  | createUser userID name email => exact ⟨_, rfl, rfl⟩
  | updateUser userID updates => exact ⟨_, rfl, rfl⟩

theorem Follows.step (follows : Follows s) {act} (turn : InTurn s act) (took : step s act = some t)
    (few : t.store.events.length < 2 ^ 63) : Follows t := by
  cases act with
  | begin command =>
    cases took
    refine ⟨follows.counted, follows.bounded, follows.sorted, fun userID => ?_⟩
    obtain ⟨ok, left, split, seen, waits⟩ := follows.divided userID
    refine ⟨ok, left, split, seen, ?_⟩
    dsimp only
    rw [filterMap_append, filterMap_cons_none rfl, filterMap_nil, append_nil]
    exact waits
  | advance i rd =>
    simp only [EventSourcing.step] at took
    split at took
    next command here =>
      obtain ⟨e, ran, inv⟩ := runCommand_append s.store command rd
      rw [ran] at took
      cases took
      simp only [length_append, length_singleton] at few
      exact follows.append few here inv
    next e here =>
      cases took
      exact follows.project here (turn e here)
    · cases took

end

section

variable {acts : List (Act X)} {s final : State X} {act : Act X}

theorem events_grow {t} (took : step s act = some t) :
    s.store.events.length ≤ t.store.events.length := by
  cases act with
  | begin command =>
    cases took
    exact Nat.le_refl _
  | advance i rd =>
    simp only [step] at took
    split at took
    next command here =>
      obtain ⟨e, ran, -⟩ := runCommand_append s.store command rd
      rw [ran] at took
      cases took
      simp
    · cases took
      exact Nat.le_refl _
    · cases took

theorem run_grows (run : exec step s acts = some final) :
    s.store.events.length ≤ final.store.events.length :=
  exec_invariant (fun t => s.store.events.length ≤ t.store.events.length)
    (Nat.le_refl _) (fun _ _ _ held took => Nat.le_trans held (events_grow took)) run

theorem run_follows (run : exec step start acts = some final)
    (few : final.store.events.length < 2 ^ 63) (turns : Along step InTurn start acts) :
    Follows final := by
  refine exec_guarded (fun s => s.store.events.length < 2 ^ 63 → Follows s)
    (fun _ => start_follows) ?_ run turns few
  intro s act t held turn took few
  exact (held (Nat.lt_of_le_of_lt (events_grow took) few)).step turn took few

theorem Follows.advances (inv : Follows s) (turn : InTurn s act) : Advances s act := by
  intro t took userID ver later pre after
  cases act with
  | begin command =>
    cases took
    rw [pre, some.injEq] at after
    exact after ▸ Int64.le_refl _
  | advance i rd =>
    simp only [EventSourcing.step] at took
    split at took
    · cases took
      rw [pre, some.injEq] at after
      exact after ▸ Int64.le_refl _
    next e here =>
      cases took
      have shown := congrArg Prod.snd (view_project s.readModel e userID)
      by_cases own : e.aggregateID = userID
      · subst own
        obtain ⟨ok, rest, split, seen, -⟩ := inv.turn here (turn e here)
        obtain ⟨earlier, mem, eq⟩ := version_of_fold ok ((congrArg Prod.snd seen).symm.trans pre)
        have sorted := inv.sorted.filter (isOf e.aggregateID)
        rw [split] at sorted
        have passes :=
          (pairwise_append.mp sorted).2.2 earlier mem e mem_cons_self
        have order : ver < e.version := eq ▸ passes
        have kept : later = e.version ∨ later = ver := by
          rw [if_pos (isOf_self e)] at shown
          have res : (applyView (view s.readModel e.aggregateID) e).2 = some later :=
            shown.symm.trans after
          unfold applyView at res
          split at res
          · exact .inl (some.inj res).symm
          · split at res
            · exact .inl (some.inj res).symm
            · exact .inr (some.inj (res.symm.trans pre))
          · cases res
        rcases kept with rfl | rfl
        · exact Int64.le_of_lt order
        · exact Int64.le_refl _
      · rw [isOf, decide_eq_false own, if_neg Bool.false_ne_true] at shown
        have eq : some later = some ver := after.symm.trans (shown.trans pre)
        rw [some.inj eq]
        exact Int64.le_refl _
    · cases took

theorem Follows.replayed (inv : Follows s) (finished : s.Finished) :
    s.readModel = replay s.store.events := by
  have none_waits : s.calls.filterMap Call.waiting = [] := by
    rw [filterMap_eq_nil_iff]
    intro c mem
    have ended := finished c mem
    cases c with
    | done => rfl
    | command _ => cases ended
    | appended _ => cases ended
  apply readModel_ext
  intro userID
  obtain ⟨ok, left, split, seen, waits⟩ := inv.divided userID
  rw [none_waits, filter_nil] at waits
  rw [nil_perm.mp waits, append_nil] at split
  rw [seen, view_replay, split]

instance (s : State X) (act : Act X) : Decidable (InTurn s act) :=
  match act with
  | .begin _ => isTrue trivial
  | .advance i _ => decidable_of_iff (∀ event ∈ (s.calls[i]?).bind Call.waiting,
      ∀ other ∈ s.calls.filterMap Call.waiting, other.aggregateID = event.aggregateID →
        event.version ≤ other.version) (by
    constructor
    · intro held event here other mem
      exact held event (by rw [here]; rfl) other (mem_waiting.mpr mem)
    · intro turn event found other mem
      obtain ⟨call, here, carried⟩ := Option.bind_eq_some_iff.mp found
      cases call with
      | appended own =>
        cases carried
        exact turn event here other (mem_waiting.mp mem)
      | command _ => cases carried
      | done => cases carried)

def clock : Reading := ⟨0, 0, 0⟩

def twoUpdates : List (Act Nat) :=
  [.begin (.createUser "u" "Alice" "alice@example.com"), .advance 0 clock, .advance 0 clock,
    .begin (.updateUser "u" ((∅ : Data Nat).insert "plan" (.any 1))),
    .begin (.updateUser "u" ((∅ : Data Nat).insert "plan" (.any 2))),
    .advance 1 clock, .advance 2 clock]

end

end AsyncPractice.EventSourcing
