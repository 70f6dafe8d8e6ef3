import AsyncPractice.GoMap
import AsyncPractice.WorkStealing

/- The TaskScheduler of challenge28_task_scheduler.go over its workers: submitTask, the loop of
scheduleTasks turn by turn, processTask on both sides of the execution, and balanceWork. -/
namespace AsyncPractice.TaskScheduler

open List Finmap Option Runs
open WorkStealing (Sound newPool_sound)

structure Task where
  id : String
  dependencies : List String
  deriving Inhabited

/-- `pass` has the workers that a call of scheduleTasks, which holds the mutex, has still to serve,
and `current` the tasks being executed. -/
structure State where
  pool : WorkStealing.State Task
  workers : List (Option Nat)
  taskQueue : List Task
  completedTasks : GoMap String Task
  dependencies : GoMap String (List String)
  pass : Option (List Nat)
  current : GoMap Nat Task

def newScheduler (n : Nat) : State :=
  ⟨WorkStealing.newPool n, (List.range n).map some, [], ∅, ∅, none, ∅⟩

/-- A task without an ID is given one. -/
def Task.named (task : Task) (generateID : String) : Task :=
  if task.id = "" then { task with id := generateID } else task

def submitTask (s : State) (task : Task) : State :=
  { s with
    dependencies := if 0 < task.dependencies.length then
      s.dependencies.insert task.id task.dependencies else s.dependencies
    taskQueue := s.taskQueue ++ [task] }

def getAvailableWorkers (s : State) : List Nat :=
  s.workers.filterMap fun entry => (s.pool.find entry fun _ worker => worker.isIdle).map Prod.fst

def dependenciesMet (s : State) (task : Task) : Bool :=
  match s.dependencies.lookup task.id with
  | none => true
  | some deps => deps.all fun dep => dep ∈ s.completedTasks

def scheduleTasks (s : State) (available : List Nat) (spare : Nat) : Option State :=
  match available, s.taskQueue with
  | worker :: available, task :: taskQueue =>
    if dependenciesMet s task then
      (WorkStealing.step s.pool (.assignTask worker task spare)).map fun pool =>
        { s with pool, taskQueue, pass := some available }
    else some { s with taskQueue := taskQueue ++ [task], pass := some available }
  | _, _ => some { s with pass := none }

def front (s : State) (w : Nat) : Option Task :=
  s.pool.workers[w]?.bind fun worker => (s.pool.memory.contents worker.localQueue).head?

inductive Event
  | submitTask (task : Task) (generateID : String)
  | scheduleTasks
  | turn (spare : Nat)
  | processTask (w : Nat)
  | executed (w : Nat) (err : Bool)
  | balanceWork
  | advance (b spare : Nat)
  | workerFailure (i : Nat)

def step (s : State) : Event → Option State
  | .submitTask task generateID =>
    if s.pass = none then some (submitTask s (task.named generateID)) else none
  | .scheduleTasks =>
    if s.pass = none then some { s with pass := some (getAvailableWorkers s) } else none
  | .turn spare => s.pass.bind fun available => scheduleTasks s available spare
  | .processTask w =>
    if w ∈ s.current then none
    else (WorkStealing.step s.pool (.processTask w)).map fun pool =>
      { s with pool, current := (front s w).elim s.current (s.current.insert w) }
  | .executed w err =>
    if s.pass = none then (s.current.lookup w).map fun task =>
      { s with
        current := s.current.erase w
        completedTasks := if err then s.completedTasks else s.completedTasks.insert task.id task }
    else none
  | .balanceWork =>
    if s.pass = none then (WorkStealing.step s.pool (.balanceWork s.workers)).map fun pool =>
      { s with pool }
    else none
  | .advance b spare =>
    (WorkStealing.step s.pool (.advance b spare)).map fun pool => { s with pool }
  | .workerFailure i => some { s with workers := s.workers.set i none }

def taskIDs (events : List Event) : List String :=
  events.filterMap fun
    | .submitTask task generateID => some (task.named generateID).id
    | _ => none

/-- The map of the dependencies has the lists of the tasks that wait, and the tasks assigned to a
worker have theirs behind them. -/
structure Ordered (ids : List String) (s : State) : Prop where
  sound : Sound s.pool
  known : ∀ id ∈ s.dependencies, id ∈ ids
  waiting : ∀ task ∈ s.taskQueue, task.id ∈ ids ∧
    (s.dependencies.lookup task.id).getD [] = task.dependencies
  assigned : ∀ task ∈ s.pool.assigned, ∀ dep ∈ task.dependencies, dep ∈ s.completedTasks

variable {ids : List String} {s next : State} {task : Task}

theorem newScheduler_ordered (n) : Ordered [] (newScheduler n) :=
  ⟨newPool_sound n, fun _ mem => absurd mem notMem_empty, nofun, nofun⟩

theorem Ordered.pool (ord : Ordered ids s) {e pool}
    (took : WorkStealing.step s.pool e = some pool) (none : e.assigns = []) (current) :
    Ordered ids { s with pool, current } := by
  obtain ⟨inv, eq⟩ := ord.sound.step took
  rw [none, append_nil] at eq
  exact ⟨inv, ord.known, ord.waiting, eq ▸ ord.assigned⟩

theorem Ordered.submitTask (ord : Ordered ids s) (fresh : task.id ∉ ids) :
    Ordered (ids ++ [task.id]) (submitTask s task) := by
  have other : ∀ id, id ≠ task.id →
      (TaskScheduler.submitTask s task).dependencies.lookup id = s.dependencies.lookup id := by
    intro id ne
    unfold TaskScheduler.submitTask
    dsimp only
    split
    · exact lookup_insert_of_ne _ ne
    · rfl
  refine ⟨ord.sound, ?_, forall_mem_snoc ?_ ⟨by simp, ?_⟩, ord.assigned⟩
  · intro id mem
    by_cases eq : id = task.id
    · simp [eq]
    · rw [← lookup_isSome, other id eq, lookup_isSome] at mem
      exact mem_append_left _ (ord.known id mem)
  · intro pre mem
    obtain ⟨submitted, rec⟩ := ord.waiting pre mem
    refine ⟨mem_append_left _ submitted, ?_⟩
    rw [other _ fun eq => fresh (eq ▸ submitted)]
    exact rec
  · unfold TaskScheduler.submitTask
    dsimp only
    split
    · rw [lookup_insert, getD_some]
    next empty =>
      have absent := lookup_eq_none.mpr fun mem => fresh (ord.known _ mem)
      rw [absent, getD_none, length_eq_zero_iff.mp (Nat.eq_zero_of_not_pos empty)]

theorem completed_of_dependenciesMet (met : dependenciesMet s task) :
    ∀ dep ∈ (s.dependencies.lookup task.id).getD [], dep ∈ s.completedTasks := by
  unfold dependenciesMet at met
  split at met
  next absent =>
    rw [absent]
    nofun
  next deps hit =>
    rw [hit]
    simpa using met

theorem Ordered.scheduleTasks (ord : Ordered ids s) {available spare}
    (took : scheduleTasks s available spare = some next) : Ordered ids next := by
  unfold TaskScheduler.scheduleTasks at took
  split at took
  next worker available task taskQueue popped =>
    have wait := ord.waiting
    rw [popped, forall_mem_cons] at wait
    split at took
    next met =>
      obtain ⟨pool, assigned, rfl⟩ := map_eq_some_iff.mp took
      obtain ⟨inv, grown⟩ := ord.sound.step assigned
      refine ⟨inv, ord.known, wait.2, ?_⟩
      change ∀ task ∈ pool.assigned, _
      rw [grown]
      refine forall_mem_snoc ord.assigned ?_
      rw [← wait.1.2]
      exact completed_of_dependenciesMet met
    · cases took
      exact ⟨ord.sound, ord.known, forall_mem_snoc wait.2 wait.1, ord.assigned⟩
  · cases took
    exact ⟨ord.sound, ord.known, ord.waiting, ord.assigned⟩

theorem Ordered.executed (ord : Ordered ids s) (w : Nat) (err : Bool) :
    Ordered ids { s with
      current := s.current.erase w
      completedTasks :=
        if err then s.completedTasks else s.completedTasks.insert task.id task } := by
  refine ⟨ord.sound, ord.known, ord.waiting, ?_⟩
  intro assigned mem dep depends
  have pre := ord.assigned assigned mem dep depends
  cases err
  · exact mem_insert.mpr (.inr pre)
  · exact pre

theorem Ordered.step {e} (ord : Ordered ids s) (distinct : (ids ++ taskIDs [e]).Nodup)
    (took : step s e = some next) : Ordered (ids ++ taskIDs [e]) next := by
  have quiet : Ordered ids next → Ordered (ids ++ []) next := fun eq => by rwa [append_nil]
  cases e with
  | submitTask task generateID =>
    obtain ⟨-, rfl⟩ := guard_some.mp took
    refine ord.submitTask fun old => ?_
    exact disjoint_of_nodup_append distinct old mem_cons_self
  | scheduleTasks =>
    obtain ⟨-, rfl⟩ := guard_some.mp took
    exact quiet ⟨ord.sound, ord.known, ord.waiting, ord.assigned⟩
  | turn spare =>
    obtain ⟨available, -, took⟩ := bind_eq_some_iff.mp took
    exact quiet (ord.scheduleTasks took)
  | processTask w =>
    obtain ⟨-, took⟩ := ite_none_left_eq_some.mp took
    obtain ⟨pool, taken, rfl⟩ := map_eq_some_iff.mp took
    exact quiet (ord.pool taken rfl _)
  | executed w err =>
    obtain ⟨-, took⟩ := ite_none_right_eq_some.mp took
    obtain ⟨task, -, rfl⟩ := map_eq_some_iff.mp took
    exact quiet (ord.executed w err)
  | balanceWork =>
    obtain ⟨-, took⟩ := ite_none_right_eq_some.mp took
    obtain ⟨pool, begun, rfl⟩ := map_eq_some_iff.mp took
    exact quiet (ord.pool begun rfl _)
  | advance b spare =>
    obtain ⟨pool, moved, rfl⟩ := map_eq_some_iff.mp took
    exact quiet (ord.pool moved rfl _)
  | workerFailure i =>
    cases took
    exact quiet ⟨ord.sound, ord.known, ord.waiting, ord.assigned⟩

theorem ordered_of_run {n es} (run : exec step (newScheduler n) es = some s) :
    (taskIDs es).Nodup → Ordered (taskIDs es) s := by
  refine exec_history (fun es s => (taskIDs es).Nodup → Ordered (taskIDs es) s)
    (fun _ => newScheduler_ordered n) ?_ run
  intro es s e next _ ord took distinct
  rw [taskIDs, filterMap_append] at distinct ⊢
  exact (ord (nodup_append.mp distinct).1).step distinct took

theorem assigned_of_front {w} (inv : Sound s.pool) (x : front s w = some task) :
    task ∈ s.pool.assigned := by
  obtain ⟨worker, here, x⟩ := bind_eq_some_iff.mp x
  rw [← inv.conserved.mem_iff, append_assoc]
  apply mem_append_left
  exact mem_flatMap.mpr ⟨worker, mem_of_getElem? here, mem_of_head? x⟩

/-- When a worker starts to execute a task, all the dependencies of the task are completed. -/
theorem starts_after_dependencies {n w : Nat} {events : List Event} {s next : State} {task : Task}
    (distinct : (taskIDs events).Nodup) (run : exec step (newScheduler n) events = some s)
    (stepped : step s (.processTask w) = some next) (started : next.current.lookup w = some task) :
    ∀ dep ∈ task.dependencies, dep ∈ s.completedTasks := by
  have ordered := ordered_of_run run distinct
  obtain ⟨free, stepped⟩ := ite_none_left_eq_some.mp stepped
  obtain ⟨pool, -, rfl⟩ := map_eq_some_iff.mp stepped
  cases first : front s w with
  | none =>
    rw [first, elim_none] at started
    exact absurd (mem_of_lookup_eq_some started) free
  | some taken =>
    rw [first, elim_some, lookup_insert] at started
    cases started
    exact ordered.assigned _ (assigned_of_front ordered.sound first)

def dependentRun : List Event :=
  [.submitTask ⟨"b", ["a"]⟩ "", .submitTask ⟨"", []⟩ "a", .processTask 0, .scheduleTasks, .turn 0,
    .turn 0, .scheduleTasks, .turn 0, .turn 0, .processTask 0, .executed 0 false, .processTask 0,
    .scheduleTasks, .turn 0, .turn 0]

theorem dependent_task_starts :
    ∃ s next, exec step (newScheduler 1) dependentRun = some s ∧
      step s (.processTask 0) = some next ∧ next.current.lookup 0 = some ⟨"b", ["a"]⟩ ∧
      "a" ∈ s.completedTasks := by
  have run : exec step (newScheduler 1) dependentRun = some _ := rfl
  exact ⟨_, _, run, rfl, rfl,
    starts_after_dependencies (w := 0) (by decide) run rfl rfl "a" mem_cons_self⟩

end AsyncPractice.TaskScheduler
