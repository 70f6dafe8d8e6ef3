import AsyncPractice.GoSlice
import AsyncPractice.Pool
import AsyncPractice.Runs
import Mathlib.Data.List.Nodup

/- The workers of challenge28_task_scheduler.go: assignTask, the part of processTask that takes a
task from the local queue, and balanceWork, which gives up the lock of the victim before it takes
that of the thief. The local queues are slices, and so are the stolen tasks. -/
namespace AsyncPractice.WorkStealing

open GoSlice List Runs

structure Worker where
  localQueue : Slice
  isIdle : Bool

/-- Where a call of balanceWork stands: before the next thief, in the loop that looks for a victim,
or between the two locks. -/
inductive Phase
  | next
  | scan (thief : Nat) (rest : List (Option Nat)) (victim : Option Nat) (maxTasks : Nat)
  | deliver (thief : Nat) (stolenTasks : Slice)

/-- A call of balanceWork, with its copy of the workers, of which some may be nil. -/
structure Balance where
  workers : List (Option Nat)
  thieves : List (Option Nat)
  phase : Phase

/-- `assigned` and `dequeued` only observe. -/
structure State (τ : Type) where
  memory : Memory τ
  workers : List Worker
  balances : List Balance
  assigned : List τ
  dequeued : List τ

inductive Event (τ : Type)
  | assignTask (w : Nat) (task : τ) (spare : Nat)
  | processTask (w : Nat)
  | balanceWork (workers : List (Option Nat))
  | advance (b : Nat) (spare : Nat)

variable {τ : Type}

/-- Every worker starts with room for ten tasks. -/
def newPool [Inhabited τ] (n : Nat) : State τ :=
  ⟨⟨n, fun _ _ => default⟩, (List.range n).map fun i => ⟨⟨i, 0, 0, 10⟩, false⟩, [], [], []⟩

def State.find (s : State τ) (entry : Option Nat) (test : Nat → Worker → Bool) :
    Option (Nat × Worker) :=
  (entry.bind fun w => s.workers[w]?.map (w, ·)).filter fun found => test found.1 found.2

def State.become (s : State τ) (b : Nat) (call : Balance) : State τ :=
  { s with balances := s.balances.set b call }

def State.append (s : State τ) (w : Nat) (worker : Worker) (tasks : List τ) (spare : Nat)
    (isIdle : Bool) : State τ :=
  { s with
    memory := (s.memory.append worker.localQueue tasks spare).1
    workers := s.workers.set w ⟨(s.memory.append worker.localQueue tasks spare).2, isIdle⟩ }

def State.cut (s : State τ) (w : Nat) (worker : Worker) (k : Nat) (isIdle : Bool) : State τ :=
  { s with workers := s.workers.set w ⟨worker.localQueue.drop k, isIdle⟩ }

def assignTask (s : State τ) (w : Nat) (worker : Worker) (task : τ) (spare : Nat) : State τ :=
  { s.append w worker [task] spare false with assigned := s.assigned ++ [task] }

def processTask (s : State τ) (w : Nat) (worker : Worker) : State τ :=
  if worker.localQueue.len = 0 then
    { s with workers := s.workers.set w { worker with isIdle := true } }
  else
    { s.cut w worker 1 false with
      dequeued := s.dequeued ++ [s.memory.slot worker.localQueue.array worker.localQueue.offset] }

def balanceWork (s : State τ) (b : Nat) (call : Balance) (spare : Nat) : Option (State τ) :=
  match call.phase with
  | .next =>
    match call.thieves with
    | [] => none
    | entry :: thieves =>
      match s.find entry fun _ worker => worker.isIdle with
      | some (thief, _) =>
        some (s.become b ⟨call.workers, thieves, .scan thief call.workers none 0⟩)
      | none => some (s.become b { call with thieves })
  | .scan thief (entry :: rest) victim maxTasks =>
    match s.find entry fun w worker => w ≠ thief ∧ maxTasks < worker.localQueue.len with
    | some (w, worker) =>
      some (s.become b { call with phase := .scan thief rest (some w) worker.localQueue.len })
    | none => some (s.become b { call with phase := .scan thief rest victim maxTasks })
  | .scan thief [] victim maxTasks =>
    match s.find victim fun _ worker => 1 < maxTasks ∧ 0 < worker.localQueue.len with
    | some (v, worker) =>
      let stealCount := worker.localQueue.len / 2
      some ((s.cut v worker stealCount worker.isIdle).become b
        { call with phase := .deliver thief (worker.localQueue.take stealCount) })
    | none => some (s.become b { call with phase := .next })
  | .deliver thief stolenTasks =>
    s.workers[thief]?.map fun worker =>
      (s.append thief worker (s.memory.contents stolenTasks) spare worker.isIdle).become b
        { call with phase := .next }

def step (s : State τ) : Event τ → Option (State τ)
  | .assignTask w task spare => s.workers[w]?.map fun worker => assignTask s w worker task spare
  | .processTask w => s.workers[w]?.map fun worker => processTask s w worker
  | .balanceWork workers => some { s with balances := s.balances ++ [⟨workers, workers, .next⟩] }
  | .advance b spare => s.balances[b]?.bind fun call => balanceWork s b call spare

def Balance.stolenTasks (call : Balance) : Option Slice :=
  match call.phase with
  | .deliver _ stolenTasks => some stolenTasks
  | _ => none

def State.queued (s : State τ) : List τ :=
  s.workers.flatMap fun worker => s.memory.contents worker.localQueue

/-- The tasks that have been taken from a victim and not yet been given to the thief. -/
def State.inTransit (s : State τ) : List τ :=
  s.balances.flatMap fun call => (call.stolenTasks.map s.memory.contents).getD []

/-- The queues have arrays of their own, and no append to a queue writes into stolen tasks. -/
structure Apart (s : State τ) : Prop where
  allocated : ∀ worker ∈ s.workers, worker.localQueue.array < s.memory.next
  arrays : (s.workers.map fun worker => worker.localQueue.array).Nodup
  clear : ∀ call ∈ s.balances, ∀ stolen ∈ call.stolenTasks, ∀ worker ∈ s.workers,
    s.memory.Clear worker.localQueue stolen

section

variable {s : State τ} {w k : Nat} {worker : Worker} {tasks : List τ} {spare : Nat} {isIdle : Bool}

theorem newPool_apart [Inhabited τ] (n) : Apart (newPool n : State τ) := by
  refine ⟨?_, ?_, nofun⟩
  · intro worker mem
    obtain ⟨i, low, rfl⟩ := mem_map.mp mem
    exact mem_range.mp low
  · rw [newPool, map_map]
    exact nodup_range.map Function.injective_id

theorem Apart.clear_other (ne : Apart s) (here : s.workers[w]? = some worker) {j other}
    (different : j ≠ w) (there : s.workers[j]? = some other) :
    s.memory.Clear worker.localQueue other.localQueue := by
  refine ⟨ne.allocated other (mem_of_getElem? there), fun shared => absurd ?_ different⟩
  have lt : j < (s.workers.map fun worker => worker.localQueue.array).length := by
    simpa using (List.getElem?_eq_some_iff.mp there).1
  rw [← getElem?_inj lt ne.arrays, getElem?_map, getElem?_map, there, here]
  exact congrArg some shared

theorem Apart.clear_take (ne : Apart s) (here : s.workers[w]? = some worker)
    (within : k ≤ worker.localQueue.len) :
    ∀ x ∈ s.workers, s.memory.Clear x.localQueue (worker.localQueue.take k) := by
  intro x mem
  refine ⟨ne.allocated worker (mem_of_getElem? here), fun shared => ?_⟩
  obtain ⟨j, there⟩ := mem_iff_getElem?.mp mem
  have pre : worker.localQueue.stop ≤ x.localQueue.stop := by
    by_cases own : w = j
    · rw [own, there] at here
      cases here
      exact Nat.le_refl _
    · exact (ne.clear_other there own here).before shared
  unfold Slice.stop Slice.take at *
  dsimp only
  omega

variable (tasks spare isIdle) in
theorem Apart.append (ne : Apart s) (here : s.workers[w]? = some worker) :
    Apart (s.append w worker tasks spare isIdle) := by
  have mem := mem_of_getElem? here
  have further := GoSlice.next_le_append s.memory worker.localQueue tasks spare
  refine ⟨?_, ?_, ?_⟩
  · intro x moved
    rcases mem_or_eq_of_mem_set moved with old | rfl
    · exact Nat.lt_of_lt_of_le (ne.allocated x old) further
    · exact GoSlice.allocated_append (ne.allocated worker mem) tasks spare
  · rcases append_cases s.memory worker.localQueue tasks spare with ⟨eq, -⟩ | ⟨new, -⟩
    · rw [State.append, Pool.map_moved here eq]
      exact ne.arrays
    · rw [State.append, map_set, new]
      refine ne.arrays.set fun used => ?_
      obtain ⟨x, old, last⟩ := mem_map.mp used
      exact absurd last (Nat.ne_of_lt (ne.allocated x old))
  · intro c calling stolen taken x moved
    have clear := ne.clear c calling stolen taken
    rcases mem_or_eq_of_mem_set moved with old | rfl
    · exact ⟨Nat.lt_of_lt_of_le (clear x old).allocated further, (clear x old).before⟩
    · exact (clear worker mem).append tasks spare

variable (isIdle) in
theorem Apart.cut (ne : Apart s) (here : s.workers[w]? = some worker)
    (within : k ≤ worker.localQueue.len) : Apart (s.cut w worker k isIdle) := by
  have mem := mem_of_getElem? here
  refine ⟨?_, ?_, ?_⟩
  · intro x moved
    rcases mem_or_eq_of_mem_set moved with old | rfl
    · exact ne.allocated x old
    · exact ne.allocated worker mem
  · have eq : (⟨worker.localQueue.drop k, isIdle⟩ : Worker).localQueue.array =
        worker.localQueue.array := rfl
    rw [State.cut, Pool.map_moved here eq]
    exact ne.arrays
  · intro c calling stolen taken x moved
    have clear := ne.clear c calling stolen taken
    rcases mem_or_eq_of_mem_set moved with old | rfl
    · exact clear x old
    · refine ⟨(clear worker mem).allocated, fun shared => ?_⟩
      have pre := (clear worker mem).before shared
      unfold Slice.stop Slice.drop at *
      dsimp only
      omega

variable {b : Nat}

theorem Apart.become (ne : Apart s) {after}
    (clear : ∀ stolen ∈ after.stolenTasks, ∀ worker ∈ s.workers,
      s.memory.Clear worker.localQueue stolen) : Apart (s.become b after) := by
  refine ⟨ne.allocated, ne.arrays, ?_⟩
  intro c calling
  rcases mem_or_eq_of_mem_set calling with old | rfl
  · exact ne.clear c old
  · exact clear

variable (tasks spare isIdle) in
theorem queued_append (ne : Apart s) (here : s.workers[w]? = some worker) :
    (s.append w worker tasks spare isIdle).queued.Perm (tasks ++ s.queued) := by
  have moved := Pool.flatMap_moved here ⟨(s.memory.append worker.localQueue tasks spare).2, isIdle⟩
    (f := fun worker => s.memory.contents worker.localQueue)
    (g := fun x =>
      (s.memory.append worker.localQueue tasks spare).1.contents x.localQueue)
    fun j x different there => contents_append_other (ne.clear_other here different there)
  rw [contents_append, append_assoc] at moved
  exact ((perm_append_left_iff _).mp moved).symm

variable (tasks spare isIdle) in
theorem inTransit_append (ne : Apart s) (here : s.workers[w]? = some worker) :
    (s.append w worker tasks spare isIdle).inTransit = s.inTransit := by
  apply flatMap_congr
  intro c calling
  cases taken : c.stolenTasks with
  | none => rfl
  | some stolen =>
    exact contents_append_other (ne.clear c calling stolen taken worker (mem_of_getElem? here))

variable (isIdle) in
theorem queued_cut (here : s.workers[w]? = some worker) (within : k ≤ worker.localQueue.len) :
    s.queued.Perm (s.memory.contents (worker.localQueue.take k) ++
      (s.cut w worker k isIdle).queued) := by
  have moved := Pool.flatMap_moved here ⟨worker.localQueue.drop k, isIdle⟩
    (f := fun worker => s.memory.contents worker.localQueue) fun _ _ _ _ => rfl
  rw [← contents_cut _ _ within, append_assoc] at moved
  exact (perm_append_left_iff _).mp (moved.trans (perm_append_comm_assoc _ _ _))

theorem inTransit_become {c} (after) (calling : s.balances[b]? = some c) :
    ((after.stolenTasks.map s.memory.contents).getD [] ++ s.inTransit).Perm
      ((c.stolenTasks.map s.memory.contents).getD [] ++ (s.become b after).inTransit) :=
  Pool.flatMap_moved calling after
    (f := fun c => (c.stolenTasks.map s.memory.contents).getD []) fun _ _ _ _ => rfl

variable {assigned dequeued inTransit inTransit' queued queued' : List τ}

/-- Tasks come into the queues by assignments and deliveries, and leave them for their execution or
for the way to a thief. -/
theorem perm_of_transfer (given delivered started stolen)
    (pre : (queued ++ inTransit ++ dequeued).Perm assigned)
    (inQueues : (stolen ++ started ++ queued').Perm (given ++ delivered ++ queued))
    (onTheWay : (delivered ++ inTransit').Perm (stolen ++ inTransit)) :
    (queued' ++ inTransit' ++ (dequeued ++ started)).Perm (assigned ++ given) := by
  classical
  rw [perm_iff_count] at pre inQueues onTheWay ⊢
  intro a
  have x := pre a
  have y := inQueues a
  have third := onTheWay a
  simp only [count_append] at x y third ⊢
  omega

theorem perm_of_moved (delivered stolen) (pre : (queued ++ inTransit ++ dequeued).Perm assigned)
    (inQueues : (stolen ++ queued').Perm (delivered ++ queued))
    (onTheWay : (delivered ++ inTransit').Perm (stolen ++ inTransit)) :
    (queued' ++ inTransit' ++ dequeued).Perm assigned := by
  simpa using perm_of_transfer [] delivered [] stolen pre (by simpa using inQueues) onTheWay

/-- What holds of the pool after every run. -/
structure Sound (s : State τ) : Prop where
  apart : Apart s
  conserved : (s.queued ++ s.inTransit ++ s.dequeued).Perm s.assigned

variable {b : Nat} {c after : Balance}

theorem newPool_sound [Inhabited τ] (n) : Sound (newPool n : State τ) :=
  ⟨newPool_apart n, by simp [State.queued, State.inTransit, newPool, Memory.contents]⟩

variable (inv : Sound s)
include inv

theorem Sound.assignTask (here : s.workers[w]? = some worker) (task) :
    Sound (assignTask s w worker task spare) := by
  have grown := inv.apart.append [task] spare false here
  have eq := inTransit_append [task] spare false inv.apart here
  refine ⟨⟨grown.allocated, grown.arrays, grown.clear⟩, ?_⟩
  have moved := perm_of_transfer [task] [] [] [] inv.conserved
    (queued_append [task] spare false inv.apart here) (.of_eq eq)
  rwa [append_nil] at moved

theorem Sound.processTask (here : s.workers[w]? = some worker) :
    Sound (processTask s w worker) := by
  unfold WorkStealing.processTask
  split
  · exact ⟨inv.apart.cut true here (Nat.zero_le _),
      perm_of_moved [] [] inv.conserved (queued_cut true here (Nat.zero_le _)).symm (.refl _)⟩
  next some =>
    have within := Nat.pos_of_ne_zero some
    have cut := inv.apart.cut false here within
    have queued := queued_cut false here within
    rw [contents_take_one] at queued
    refine ⟨⟨cut.allocated, cut.arrays, cut.clear⟩, ?_⟩
    have moved := perm_of_transfer [] [] _ [] inv.conserved queued.symm (.refl _)
    rwa [append_nil] at moved

theorem Sound.begin (none : c.stolenTasks = none) :
    Sound { s with balances := s.balances ++ [c] } := by
  have eq : State.inTransit { s with balances := s.balances ++ [c] } = s.inTransit := by
    simp [State.inTransit, none]
  refine ⟨⟨inv.apart.allocated, inv.apart.arrays,
    forall_mem_snoc inv.apart.clear ?_⟩, eq ▸ inv.conserved⟩
  rw [none]
  nofun

theorem Sound.look (calling : s.balances[b]? = some c) (pre : c.stolenTasks = none)
    (none : after.stolenTasks = none) : Sound (s.become b after) := by
  have moved := inTransit_become after calling
  rw [pre, none] at moved
  refine ⟨inv.apart.become ?_, perm_of_moved [] [] inv.conserved (.refl _) moved.symm⟩
  rw [none]
  nofun

theorem Sound.steal (calling : s.balances[b]? = some c) (pre : c.stolenTasks = none)
    (here : s.workers[w]? = some worker) (within : k ≤ worker.localQueue.len)
    (stolen : after.stolenTasks = some (worker.localQueue.take k)) :
    Sound ((s.cut w worker k isIdle).become b after) := by
  have moved := inTransit_become after calling
  rw [pre, stolen] at moved
  refine ⟨(inv.apart.become ?_).cut isIdle here within,
    perm_of_moved [] _ inv.conserved (queued_cut isIdle here within).symm moved.symm⟩
  rw [stolen]
  intro taken eq
  cases eq
  exact inv.apart.clear_take here within

theorem Sound.deliver (calling : s.balances[b]? = some c) {stolenTasks}
    (stolen : c.stolenTasks = some stolenTasks) (here : s.workers[w]? = some worker)
    (none : after.stolenTasks = none) :
    Sound ((s.append w worker (s.memory.contents stolenTasks) spare isIdle).become b after) := by
  have moved := inTransit_become after calling
  rw [stolen, none] at moved
  have handed : Apart (s.become b after) := inv.apart.become (by rw [none]; nofun)
  have eq := inTransit_append (s.memory.contents stolenTasks) spare isIdle handed here
  exact ⟨handed.append _ spare isIdle here, perm_of_moved _ [] inv.conserved
    (queued_append _ spare isIdle inv.apart here) (eq ▸ moved.symm)⟩

omit inv

theorem worker_of_find {e test} (hit : s.find e test = some (w, worker)) :
    s.workers[w]? = some worker := by
  obtain ⟨i, -, look⟩ := Option.bind_eq_some_iff.mp (Option.filter_eq_some_iff.mp hit).1
  obtain ⟨there, stored, eq⟩ := Option.map_eq_some_iff.mp look
  cases eq
  exact stored

variable {t : State τ}

theorem Sound.balanceWork (inv : Sound s) (calling : s.balances[b]? = some c)
    (took : balanceWork s b c spare = some t) : Sound t ∧ t.assigned = s.assigned := by
  unfold WorkStealing.balanceWork at took
  cases phase : c.phase with
  | next =>
    have pre : c.stolenTasks = none := by rw [Balance.stolenTasks, phase]
    rw [phase] at took
    dsimp only at took
    split at took
    · cases took
    · split at took <;> cases took <;> exact ⟨inv.look calling pre rfl, rfl⟩
  | scan thief rest victim maxTasks =>
    have pre : c.stolenTasks = none := by rw [Balance.stolenTasks, phase]
    rw [phase] at took
    cases rest with
    | cons e rest =>
      dsimp only at took
      split at took <;> cases took <;> exact ⟨inv.look calling pre rfl, rfl⟩
    | nil =>
      dsimp only at took
      split at took <;> cases took
      next hit =>
        exact ⟨inv.steal calling pre (worker_of_find hit) (Nat.div_le_self _ 2) rfl, rfl⟩
      · exact ⟨inv.look calling pre rfl, rfl⟩
  | deliver thief stolenTasks =>
    rw [phase] at took
    obtain ⟨worker, here, rfl⟩ := Option.map_eq_some_iff.mp took
    exact ⟨inv.deliver calling (by rw [Balance.stolenTasks, phase]) here rfl, rfl⟩

def Event.assigns : Event τ → List τ
  | .assignTask _ task _ => [task]
  | _ => []

theorem Sound.step {e} (inv : Sound s) (took : step s e = some t) :
    Sound t ∧ t.assigned = s.assigned ++ e.assigns := by
  cases e with
  | assignTask w task spare =>
    obtain ⟨worker, here, rfl⟩ := Option.map_eq_some_iff.mp took
    exact ⟨inv.assignTask here task, rfl⟩
  | processTask w =>
    obtain ⟨worker, here, rfl⟩ := Option.map_eq_some_iff.mp took
    refine ⟨inv.processTask here, ?_⟩
    unfold WorkStealing.processTask
    split <;> exact (append_nil _).symm
  | balanceWork workers =>
    cases took
    exact ⟨inv.begin rfl, (append_nil _).symm⟩
  | advance b spare =>
    obtain ⟨c, calling, took⟩ := Option.bind_eq_some_iff.mp took
    obtain ⟨inv, eq⟩ := inv.balanceWork calling took
    exact ⟨inv, eq.trans (append_nil _).symm⟩

end

/-- The tasks in the local queues, those on the way to a thief and those taken for execution are the
assigned tasks, none lost and none twice. -/
theorem stealing_conserves_tasks [Inhabited τ] {n : Nat} {events : List (Event τ)} {s : State τ}
    (run : exec step (newPool n) events = some s) :
    (s.queued ++ s.inTransit ++ s.dequeued).Perm s.assigned :=
  (exec_invariant Sound (newPool_sound n) (fun _ _ _ sound stepped => (sound.step stepped).1)
    run).conserved

def stealingRun : List (Event String) :=
  [.assignTask 0 "a" 0, .assignTask 0 "b" 0, .assignTask 0 "c" 0, .assignTask 0 "d" 0,
    .processTask 1, .balanceWork [some 0, some 1]] ++ List.replicate 5 (.advance 0 0) ++
    [.processTask 0]

theorem stolen_tasks_in_transit :
    ∃ s, exec step (newPool 2) stealingRun = some s ∧
      s.queued = ["d"] ∧ s.inTransit = ["a", "b"] ∧ s.dequeued = ["c"] ∧
      (s.queued ++ s.inTransit ++ s.dequeued).Perm s.assigned := by
  have run : exec step (newPool 2) stealingRun = some _ := rfl
  exact ⟨_, run, rfl, rfl, rfl, stealing_conserves_tasks run⟩

end AsyncPractice.WorkStealing
