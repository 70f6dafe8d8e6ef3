import Mathlib.Data.List.Basic
import AsyncPractice.Runs
import Mathlib.Data.List.Count

/- DistributedLoggingExample of distributed_logging_example.go, from Log to writeBatch. The
goroutines of processBuffer and processBatcher, calls of Log and one call of Shutdown take their
steps in any order; a call under the lock of the batcher is one step. The ring buffer is an ideal
queue. -/
namespace AsyncPractice.LoggingExample

section

open Option

variable {E : Type}

/-- `flush` says whether the channel, which has room for one signal, holds it. -/
structure LogBatcher (E : Type) where
  batch : List E
  flush : Bool

/-- Add returns the batch once it is full, and otherwise leaves a signal. -/
def LogBatcher.add (batchSize : Nat) (lb : LogBatcher E) (entry : E) :
    LogBatcher E × Option (List E) :=
  let batch := lb.batch ++ [entry]
  if batch.length ≥ batchSize then ({ lb with batch := [] }, some batch)
  else (⟨batch, true⟩, none)

def LogBatcher.getBatch (lb : LogBatcher E) : LogBatcher E × Option (List E) :=
  if lb.batch.length = 0 then (lb, none) else ({ lb with batch := [] }, some lb.batch)

/-- The loop of processBuffer that an entry was read in: the one around the select, or the one that
empties the buffer after Shutdown. -/
inductive Loop
  | selecting
  | draining
  deriving DecidableEq

/-- Where processBuffer stands: at its select, before Read, in processSingleLog before Add or before
writeBatch, or at its end. -/
inductive Buffering (E : Type)
  | selecting
  | reading (loop : Loop)
  | adding (entry : E) (loop : Loop)
  | writing (batch : List E) (loop : Loop)
  | returned

def Buffering.resume : Loop → Buffering E
  | .selecting => .selecting
  | .draining => .reading .draining

/-- Where processBatcher stands: at its select, before GetBatch, before writeBatch, or at its end.
`final` is set in the branch for Shutdown. -/
inductive Batching (E : Type)
  | selecting
  | getting (final : Bool)
  | writing (batch : List E) (final : Bool)
  | returned

def Batching.resume (final : Bool) : Batching E := if final then .returned else .selecting

/-- Shutdown: before it, waiting for the two goroutines, and after it. -/
inductive Stopping
  | running
  | waiting
  | returned
  deriving DecidableEq

/-- `written` are the batches passed to writeBatch. `accepted` lists the entries that Log has put
into the buffer and `late` counts the calls of Add after the last GetBatch of processBatcher; these
two only observe. -/
structure State (E : Type) where
  buffer : List E
  batcher : LogBatcher E
  buffering : Buffering E
  batching : Batching E
  stopping : Stopping
  written : List (List E)
  accepted : List E
  late : Nat

def newDistributedLoggingExample : State E :=
  ⟨[], ⟨[], false⟩, .selecting, .selecting, .running, [], [], 0⟩

def Batching.past : Batching E → Bool
  | .writing _ final => final
  | .returned => true
  | _ => false

variable (batchSize : Nat) (s : State E)

/-- An entry that is sampled; the enrichers are part of it. -/
def log (entry : E) : State E :=
  { s with buffer := s.buffer ++ [entry], accepted := s.accepted ++ [entry] }

/-- The select of processBuffer takes its default only while the channel is open. -/
def bufferSelect : Option (State E) :=
  match s.buffering with
  | .selecting =>
    some { s with
      buffering := .reading (if s.stopping = .running then .selecting else .draining) }
  | _ => none

def bufferRead : Option (State E) :=
  match s.buffering with
  | .reading loop =>
    match s.buffer, loop with
    | entry :: rest, _ => some { s with buffer := rest, buffering := .adding entry loop }
    | [], .selecting => some { s with buffering := .selecting }
    | [], .draining => some { s with buffering := .returned }
  | _ => none

def bufferAdd : Option (State E) :=
  match s.buffering with
  | .adding entry loop =>
    let late := if s.batching.past then s.late + 1 else s.late
    match s.batcher.add batchSize entry with
    | (batcher, some batch) => some { s with batcher, late, buffering := .writing batch loop }
    | (batcher, none) => some { s with batcher, late, buffering := .resume loop }
  | _ => none

def bufferWrite : Option (State E) :=
  match s.buffering with
  | .writing batch loop =>
    some { s with written := s.written ++ [batch], buffering := .resume loop }
  | _ => none

/-- The case of the closed channel. -/
def batcherShutdown : Option (State E) :=
  match s.batching with
  | .selecting => if s.stopping = .running then none else some { s with batching := .getting true }
  | _ => none

/-- The case of the ticker, which can have ticked by any time. -/
def batcherTick : Option (State E) :=
  match s.batching with
  | .selecting => some { s with batching := .getting false }
  | _ => none

/-- The case of the signal of Add, which does nothing. -/
def batcherFlush : Option (State E) :=
  match s.batching with
  | .selecting =>
    if s.batcher.flush then some { s with batcher := { s.batcher with flush := false } } else none
  | _ => none

def batcherGet : Option (State E) :=
  match s.batching with
  | .getting final =>
    match s.batcher.getBatch with
    | (batcher, some batch) => some { s with batcher, batching := .writing batch final }
    | (batcher, none) => some { s with batcher, batching := .resume final }
  | _ => none

def batcherWrite : Option (State E) :=
  match s.batching with
  | .writing batch final =>
    some { s with written := s.written ++ [batch], batching := .resume final }
  | _ => none

/-- Shutdown up to its wait. -/
def shutdown : Option (State E) :=
  if s.stopping = .running then some { s with stopping := .waiting } else none

def wait : Option (State E) :=
  match s.stopping, s.buffering, s.batching with
  | .waiting, .returned, .returned => some { s with stopping := .returned }
  | _, _, _ => none

inductive Event (E : Type)
  | log (entry : E)
  | bufferSelect
  | bufferRead
  | bufferAdd
  | bufferWrite
  | batcherShutdown
  | batcherTick
  | batcherFlush
  | batcherGet
  | batcherWrite
  | shutdown
  | wait

def step (batchSize : Nat) (s : State E) : Event E → Option (State E)
  | .log entry => some (log s entry)
  | .bufferSelect => bufferSelect s
  | .bufferRead => bufferRead s
  | .bufferAdd => bufferAdd batchSize s
  | .bufferWrite => bufferWrite s
  | .batcherShutdown => batcherShutdown s
  | .batcherTick => batcherTick s
  | .batcherFlush => batcherFlush s
  | .batcherGet => batcherGet s
  | .batcherWrite => batcherWrite s
  | .shutdown => shutdown s
  | .wait => wait s

variable {batchSize : Nat} {s t : State E} {e : Event E}

inductive Moves (batchSize : Nat) (s : State E) : Event E → State E → Prop
  | log (entry : E) : Moves batchSize s (.log entry) (log s entry)
  | bufferSelect (place : s.buffering = .selecting) :
      Moves batchSize s .bufferSelect { s with
        buffering := .reading (if s.stopping = .running then .selecting else .draining) }
  | bufferRead {loop : Loop} {entry : E} {rest : List E} (place : s.buffering = .reading loop)
      (found : s.buffer = entry :: rest) :
      Moves batchSize s .bufferRead { s with buffer := rest, buffering := .adding entry loop }
  | bufferIdle (place : s.buffering = .reading .selecting) (empty : s.buffer = []) :
      Moves batchSize s .bufferRead { s with buffering := .selecting }
  | bufferReturn (place : s.buffering = .reading .draining) (empty : s.buffer = []) :
      Moves batchSize s .bufferRead { s with buffering := .returned }
  | bufferFill {entry : E} {loop : Loop} (place : s.buffering = .adding entry loop)
      (full : s.batcher.batch.length + 1 ≥ batchSize) :
      Moves batchSize s .bufferAdd { s with
        batcher := { s.batcher with batch := [] }
        late := if s.batching.past then s.late + 1 else s.late
        buffering := .writing (s.batcher.batch ++ [entry]) loop }
  | bufferAdd {entry : E} {loop : Loop} (place : s.buffering = .adding entry loop)
      (room : s.batcher.batch.length + 1 < batchSize) :
      Moves batchSize s .bufferAdd { s with
        batcher := ⟨s.batcher.batch ++ [entry], true⟩
        late := if s.batching.past then s.late + 1 else s.late
        buffering := .resume loop }
  | bufferWrite {batch : List E} {loop : Loop} (place : s.buffering = .writing batch loop) :
      Moves batchSize s .bufferWrite { s with
        written := s.written ++ [batch]
        buffering := .resume loop }
  | batcherShutdown (place : s.batching = .selecting) (stopped : s.stopping ≠ .running) :
      Moves batchSize s .batcherShutdown { s with batching := .getting true }
  | batcherTick (place : s.batching = .selecting) :
      Moves batchSize s .batcherTick { s with batching := .getting false }
  | batcherFlush (place : s.batching = .selecting) :
      Moves batchSize s .batcherFlush { s with batcher := { s.batcher with flush := false } }
  | batcherGet {final : Bool} (place : s.batching = .getting final) :
      Moves batchSize s .batcherGet { s with
        batcher := { s.batcher with batch := [] }
        batching := .writing s.batcher.batch final }
  | batcherEmpty {final : Bool} (place : s.batching = .getting final)
      (empty : s.batcher.batch = []) :
      Moves batchSize s .batcherGet { s with batching := .resume final }
  | batcherWrite {batch : List E} {final : Bool} (place : s.batching = .writing batch final) :
      Moves batchSize s .batcherWrite { s with
        written := s.written ++ [batch]
        batching := .resume final }
  | shutdown (running : s.stopping = .running) :
      Moves batchSize s .shutdown { s with stopping := .waiting }
  | wait (waiting : s.stopping = .waiting) (buffering : s.buffering = .returned)
      (batching : s.batching = .returned) :
      Moves batchSize s .wait { s with stopping := .returned }

theorem moves_bufferRead (took : bufferRead s = some t) : Moves batchSize s .bufferRead t := by
  unfold bufferRead at took
  split at took
  next loop place =>
    split at took
    next entry rest hit =>
      cases took
      exact .bufferRead place hit
    next empty =>
      cases took
      exact .bufferIdle place empty
    next empty =>
      cases took
      exact .bufferReturn place empty
  · cases took

theorem moves_bufferAdd (took : bufferAdd batchSize s = some t) :
    Moves batchSize s .bufferAdd t := by
  unfold bufferAdd LogBatcher.add at took
  split at took
  next entry loop place =>
    simp only [List.length_append, List.length_singleton] at took
    by_cases full : s.batcher.batch.length + 1 ≥ batchSize
    · simp only [full, if_true] at took
      cases took
      exact .bufferFill place full
    · simp only [full, if_false] at took
      cases took
      exact .bufferAdd place (Nat.lt_of_not_le full)
  · cases took

theorem moves_batcherGet (took : batcherGet s = some t) : Moves batchSize s .batcherGet t := by
  unfold batcherGet LogBatcher.getBatch at took
  split at took
  next final place =>
    by_cases empty : s.batcher.batch.length = 0
    · simp only [empty, if_true] at took
      cases took
      exact .batcherEmpty place (List.eq_nil_of_length_eq_zero empty)
    · simp only [empty, if_false] at took
      cases took
      exact .batcherGet place
  · cases took

theorem moves_of_step (took : step batchSize s e = some t) : Moves batchSize s e t := by
  cases e with
  | log entry =>
    cases took
    exact .log entry
  | bufferSelect =>
    simp only [step, bufferSelect] at took
    split at took <;> cases took
    rename_i p
    exact .bufferSelect p
  | bufferRead => exact moves_bufferRead took
  | bufferAdd => exact moves_bufferAdd took
  | bufferWrite =>
    simp only [step, bufferWrite] at took
    split at took <;> cases took
    rename_i batch loop p
    exact .bufferWrite p
  | batcherShutdown =>
    simp only [step, batcherShutdown] at took
    split at took
    next p =>
      obtain ⟨halt, took⟩ := ite_none_left_eq_some.mp took
      cases took
      exact .batcherShutdown p halt
    · cases took
  | batcherTick =>
    simp only [step, batcherTick] at took
    split at took <;> cases took
    rename_i p
    exact .batcherTick p
  | batcherFlush =>
    simp only [step, batcherFlush] at took
    split at took
    next p =>
      obtain ⟨-, took⟩ := ite_none_right_eq_some.mp took
      cases took
      exact .batcherFlush p
    · cases took
  | batcherGet => exact moves_batcherGet took
  | batcherWrite =>
    simp only [step, batcherWrite] at took
    split at took <;> cases took
    rename_i batch final p
    exact .batcherWrite p
  | shutdown =>
    obtain ⟨running, took⟩ := ite_none_right_eq_some.mp took
    cases took
    exact .shutdown running
  | wait =>
    simp only [step, wait] at took
    split at took <;> cases took
    rename_i waiting buffering batching
    exact .wait waiting buffering batching

end

/- What has been passed to writeBatch when Shutdown returns. After its last GetBatch processBatcher
does not come back, so what processBuffer still adds to the batcher is written only in full
batches. -/
open List Runs

variable {E : Type}

/-- The entries processBuffer has taken out of the buffer or the batcher. -/
def Buffering.held : Buffering E → List E
  | .adding entry _ => [entry]
  | .writing batch _ => batch
  | .selecting | .reading _ | .returned => []

/-- The entries processBatcher has taken out of the batcher. -/
def Batching.held : Batching E → List E
  | .writing batch _ => batch
  | .selecting | .getting _ | .returned => []

@[simp] theorem held_resume_loop (loop) : (Buffering.resume loop : Buffering E).held = [] := by
  cases loop <;> rfl

@[simp] theorem held_resume_final (t) : (Batching.resume t : Batching E).held = [] := by
  cases t <;> rfl

@[simp] theorem past_resume (t) : (Batching.resume t : Batching E).past = t := by
  cases t <;> rfl

section

variable [DecidableEq E] {batchSize : Nat} {s t : State E} {e : Event E} {es : List (Event E)}

/-- How often an entry is somewhere between Log and writeBatch, or was passed to writeBatch. -/
def tally (s : State E) (entry : E) : Nat :=
  s.written.flatten.count entry + s.buffering.held.count entry + s.batching.held.count entry +
    s.batcher.batch.count entry + s.buffer.count entry

theorem tally_moves (moves : Moves batchSize s e t) (entry) :
    tally t entry + s.accepted.count entry = tally s entry + t.accepted.count entry := by
  unfold tally
  cases moves with
  | log x =>
    simp only [log, count_append]
    omega
  | bufferSelect p | bufferIdle p empty | bufferReturn p empty =>
    simp [p, Buffering.held]
  | bufferRead p hit =>
    simp only [p, hit, Buffering.held, count_cons, count_nil]
    omega
  | bufferFill p full =>
    simp only [p, Buffering.held, count_append, count_nil]
    omega
  | bufferAdd p room =>
    simp only [p, held_resume_loop, count_append, count_nil]
    simp only [Buffering.held]
    omega
  | bufferWrite p =>
    simp only [p, held_resume_loop, flatten_append, flatten_cons, flatten_nil,
      append_nil, count_append, count_nil]
    simp only [Buffering.held, Nat.add_zero]
  | batcherShutdown p halt | batcherTick p | batcherGet p =>
    simp [p, Batching.held]
  | batcherFlush p => rfl
  | shutdown running => rfl
  | wait waiting buffering batching => rfl
  | batcherEmpty p empty =>
    simp only [p, held_resume_final]
    simp only [Batching.held]
  | batcherWrite p =>
    simp only [p, held_resume_final, flatten_append, flatten_cons, flatten_nil,
      append_nil, count_append, count_nil]
    simp only [Batching.held]
    omega

theorem tally_of_run (run : exec (step batchSize) newDistributedLoggingExample es = some s)
    (entry) : tally s entry = s.accepted.count entry := by
  refine exec_invariant (fun s => tally s entry = s.accepted.count entry) rfl ?_ run
  intro s e t eq took
  have moved := tally_moves (moves_of_step took) entry
  omega

end

variable {batchSize : Nat} {s t : State E} {e : Event E} {events : List (Event E)}

theorem succ_mod {count size} (ne : 0 < size) :
    (count + 1) % size = if count % size + 1 < size then count % size + 1 else 0 := by
  have below := Nat.mod_lt count ne
  have t : (count + 1) % size = (count % size + 1) % size := by
    rw [Nat.mod_add_mod]
  split
  next room =>
    rw [t, Nat.mod_eq_of_lt room]
  · have whole : count % size + 1 = size := by omega
    rw [t, whole, Nat.mod_self]

/-- Since the last GetBatch the batcher holds what was added beyond full batches. -/
structure Counts (batchSize : Nat) (s : State E) : Prop where
  small : s.batcher.batch.length < batchSize
  early : s.batching.past = false → s.late = 0
  late : s.batching.past = true → s.late % batchSize = s.batcher.batch.length

theorem Counts.keep (counts : Counts batchSize s) (batch : t.batcher.batch = s.batcher.batch)
    (late : t.late = s.late) (past : t.batching.past = s.batching.past) : Counts batchSize t := by
  constructor
  · rw [batch]
    exact counts.small
  · rw [past, late]
    exact counts.early
  · rw [past, late, batch]
    exact counts.late

theorem Counts.moves (counts : Counts batchSize s) (moves : Moves batchSize s e t) :
    Counts batchSize t := by
  have ne : 0 < batchSize := Nat.zero_lt_of_lt counts.small
  cases moves with
  | log | bufferSelect | bufferRead | bufferIdle | bufferReturn | bufferWrite | batcherFlush
  | shutdown | wait => exact counts.keep rfl rfl rfl
  | bufferFill p full =>
    refine ⟨ne, fun pre => ?_, fun past => ?_⟩
    · simp only [pre, Bool.false_eq_true, if_false]
      exact counts.early pre
    · have rest := counts.late past
      simp only [past, if_true, length_nil]
      rw [succ_mod ne, rest, if_neg (Nat.not_lt.mpr full)]
  | bufferAdd p room =>
    refine ⟨?_, fun pre => ?_, fun past => ?_⟩
    · simp only [length_append, length_singleton]
      exact room
    · simp only [pre, Bool.false_eq_true, if_false]
      exact counts.early pre
    · have rest := counts.late past
      simp only [past, if_true, length_append, length_singleton]
      rw [succ_mod ne, rest, if_pos room]
  | batcherShutdown p halt =>
    refine counts.keep rfl rfl ?_
    rw [p]
    rfl
  | batcherTick p =>
    refine counts.keep rfl rfl ?_
    rw [p]
    rfl
  | batcherGet p =>
    have pre : s.batching.past = false := by rw [p]; rfl
    refine ⟨ne, fun _ => counts.early pre, fun _ => ?_⟩
    simp only [counts.early pre, length_nil, Nat.zero_mod]
  | batcherEmpty p empty =>
    have pre : s.batching.past = false := by rw [p]; rfl
    refine ⟨counts.small, fun _ => counts.early pre, fun _ => ?_⟩
    simp only [counts.early pre, empty, length_nil, Nat.zero_mod]
  | batcherWrite p =>
    refine counts.keep rfl rfl ?_
    rw [p, past_resume]
    rfl

def Buffering.draining : Buffering E → Bool
  | .reading loop | .adding _ loop | .writing _ loop => loop = .draining
  | .selecting => false
  | .returned => true

theorem draining_resume (loop) :
    (Buffering.resume loop : Buffering E).draining = decide (loop = .draining) := by
  cases loop <;> rfl

/-- Log accepts no entry once Shutdown was called. -/
def Before (s : State E) : Event E → Prop
  | .log _ => s.stopping = .running
  | _ => True

/-- What the wait of Shutdown relies on. -/
structure Closes (s : State E) : Prop where
  draining : s.buffering.draining = true → s.stopping ≠ .running
  drained : s.buffering = .returned → s.buffer = []
  awaited : s.stopping = .returned → s.buffering = .returned ∧ s.batching = .returned

theorem Closes.buffers (inv : Closes s) (lt : s.buffering ≠ .returned)
    (stays : t.buffering ≠ .returned) (loop : t.buffering.draining = s.buffering.draining)
    (halt : t.stopping = s.stopping) : Closes t := by
  refine ⟨?_, fun ret => absurd ret stays, fun ret => ?_⟩
  · rw [loop, halt]
    exact inv.draining
  · exact absurd (inv.awaited (halt ▸ ret)).1 lt

theorem Closes.batches (inv : Closes s) (lt : s.batching ≠ .returned)
    (buffering : t.buffering = s.buffering) (buffer : t.buffer = s.buffer)
    (halt : t.stopping = s.stopping) : Closes t := by
  refine ⟨?_, ?_, fun ret => ?_⟩
  · rw [buffering, halt]
    exact inv.draining
  · rw [buffering, buffer]
    exact inv.drained
  · exact absurd (inv.awaited (halt ▸ ret)).2 lt

theorem Closes.moves (inv : Closes s) (pre : Before s e) (moves : Moves batchSize s e t) :
    Closes t := by
  cases moves with
  | log entry =>
    have running : s.stopping = .running := pre
    refine ⟨inv.draining, fun ret => ?_, fun ret => ?_⟩
    · have ret : s.buffering = .returned := ret
      exact absurd running (inv.draining (by rw [ret]; rfl))
    · exact absurd (running.symm.trans ret) (by decide)
  | bufferSelect p =>
    refine ⟨fun draining running => ?_, by simp, fun ret => ?_⟩
    · have running : s.stopping = .running := running
      simp [running, Buffering.draining] at draining
    · exact absurd (inv.awaited ret).1 (by simp [p])
  | bufferRead p hit | bufferIdle p empty | bufferFill p full =>
    exact inv.buffers (by simp [p]) (by simp) (by rw [p]; rfl) rfl
  | bufferReturn p empty =>
    refine ⟨fun _ => ?_, fun _ => empty, fun ret => ?_⟩
    · exact inv.draining (by rw [p]; rfl)
    · exact absurd (inv.awaited ret).1 (by simp [p])
  | @bufferAdd entry loop p room | @bufferWrite batch loop p =>
    refine inv.buffers (by simp [p]) (by cases loop <;> simp [Buffering.resume]) ?_ rfl
    rw [p, draining_resume]
    rfl
  | batcherShutdown p stopped | batcherTick p | batcherFlush p | batcherGet p
  | batcherEmpty p empty | batcherWrite p =>
    exact inv.batches (by simp [p]) rfl rfl rfl
  | shutdown running => exact ⟨fun _ => by simp, inv.drained, by simp⟩
  | wait waiting buffering batching =>
    exact ⟨fun _ => by simp, inv.drained, fun _ => ⟨buffering, batching⟩⟩

theorem closes_of_run (run : exec (step batchSize) newDistributedLoggingExample events = some s)
    (pre : Along (step batchSize) Before newDistributedLoggingExample events) : Closes s := by
  refine exec_guarded Closes ⟨?_, ?_, ?_⟩ ?_ run pre
  · simp [newDistributedLoggingExample, Buffering.draining]
  · simp [newDistributedLoggingExample]
  · simp [newDistributedLoggingExample]
  · intro s e t inv pre took
    exact inv.moves pre (moves_of_step took)

theorem counts_of_run (ne : 0 < batchSize)
    (run : exec (step batchSize) newDistributedLoggingExample events = some s) :
    Counts batchSize s := by
  refine exec_invariant (Counts batchSize) ⟨?_, fun _ => rfl, fun _ => ?_⟩ ?_ run
  · exact ne
  · exact Nat.zero_mod batchSize
  · intro s e t counts took
    exact counts.moves (moves_of_step took)

/-- When Shutdown returns, every entry that Log has accepted was passed to writeBatch exactly once
if and only if the entries added to the batcher after the last GetBatch of processBatcher make up
full batches. -/
theorem shutdown_delivers_iff (nonempty : 0 < batchSize)
    (run : exec (step batchSize) newDistributedLoggingExample events = some s)
    (before : Along (step batchSize) Before newDistributedLoggingExample events)
    (returned : s.stopping = .returned) :
    s.written.flatten.Perm s.accepted ↔ s.late % batchSize = 0 := by
  classical
  have closes := closes_of_run run before
  obtain ⟨buffering, batching⟩ := closes.awaited returned
  have empty := closes.drained buffering
  have rest := (counts_of_run nonempty run).late (by rw [batching]; rfl)
  have shares : ∀ entry, s.written.flatten.count entry + s.batcher.batch.count entry =
      s.accepted.count entry := by
    intro entry
    have whole := tally_of_run run entry
    rw [tally, buffering, batching, empty] at whole
    simpa [Buffering.held, Batching.held] using whole
  rw [rest, length_eq_zero_iff, perm_iff_count]
  constructor
  · intro same
    apply eq_nil_iff_forall_not_mem.mpr
    intro entry member
    have positive := count_pos_iff.mpr member
    have := shares entry
    have := same entry
    omega
  · intro none entry
    have := shares entry
    rw [none, count_nil] at this
    omega

instance (s : State E) (event : Event E) : Decidable (Before s event) :=
  match event with
  | .log _ => inferInstanceAs (Decidable (s.stopping = .running))
  | .bufferSelect | .bufferRead | .bufferAdd | .bufferWrite | .batcherShutdown | .batcherTick
  | .batcherFlush | .batcherGet | .batcherWrite | .shutdown | .wait => isTrue trivial

def orderly : List (Event Nat) :=
  [.log 1, .log 2, .log 3, .shutdown, .bufferSelect, .bufferRead, .bufferAdd, .bufferRead,
    .bufferAdd, .bufferWrite, .bufferRead, .bufferAdd, .bufferRead, .batcherFlush,
    .batcherShutdown, .batcherGet, .batcherWrite, .wait]

theorem orderly_shutdown_delivers :
    ∃ s, exec (step 2) newDistributedLoggingExample orderly = some s ∧
      s.stopping = .returned ∧ s.accepted = [1, 2, 3] ∧ s.written.flatten.Perm s.accepted := by
  refine exists_exec (fun s => s.stopping = .returned ∧ s.accepted = [1, 2, 3] ∧ s.late % 2 = 0)
    (by decide) ?_
  intro s run ⟨returned, accepted, late⟩
  have before : Along (step 2) Before newDistributedLoggingExample orderly :=
    along_of_decide (by decide)
  exact ⟨returned, accepted, (shutdown_delivers_iff (by decide) run before returned).mpr late⟩

/-- processBatcher returns before processBuffer has read the entry, which stays in the batcher. -/
theorem last_entry_unwritten :
    ∃ s, exec (step 100) newDistributedLoggingExample
        ([.log 1, .shutdown, .batcherShutdown, .batcherGet, .bufferSelect, .bufferRead, .bufferAdd,
          .bufferRead, .wait] : List (Event Nat)) = some s ∧
      s.stopping = .returned ∧ s.accepted = [1] ∧ s.written = [] ∧ s.batcher.batch = [1] :=
  ⟨_, rfl, by decide, by decide, by decide, by decide⟩

end AsyncPractice.LoggingExample
