import Mathlib.Data.List.Basic

/- BufferedLogger of solution19_distributed_logging. Calls of Log, the goroutine of processBatches,
the goroutines with which it writes to the sinks and one call of Shutdown take their steps in any
order. The buffer is a channel with room for at least one entry. -/
namespace AsyncPractice.BufferedLogger

open Option List

inductive LogLevel
  | DEBUG
  | INFO
  | WARN
  | ERROR
  | FATAL

/-- `F` are the field maps, which are only passed on. -/
structure LogEntry (F : Type) where
  level : LogLevel
  timestamp : Int
  message : String
  fields : F
  traceID : String
  spanID : String
  service : String
  host : String

/-- A sink that never fails, as the batches written to it and whether it was closed. -/
structure LogSink (F : Type) where
  received : List (List (LogEntry F))
  closed : Bool

structure LogMetrics where
  totalLogs : Int64
  droppedLogs : Int64
  batchesSent : Int64

/-- Where a call of Log stands after its first select: in the select with the timeout, before the
count of what became of the entry, or at its end. -/
inductive Call (F : Type)
  | waiting (entry : LogEntry F)
  | sent
  | timedOut
  | returned

/-- Where processBatches goes on after flushBatch. -/
inductive Resume
  | selecting
  | returning

/-- `flushing` is the wait of flushBatch for the goroutines that have yet to write to their sinks,
which are given by their positions. -/
inductive Processor (F : Type)
  | selecting
  | flushing (batchToSend : List (LogEntry F)) (writers : List Nat) (resume : Resume)
  | draining
  | returned

/-- Shutdown: before it, waiting for processBatches, about to close the sink at a position, and
after it. -/
inductive Stopping
  | running
  | waiting
  | closing (k : Nat)
  | returned
  deriving DecidableEq

/-- `accepted` lists the entries that were sent into the buffer; it only observes. -/
structure State (F : Type) where
  buffer : List (LogEntry F)
  batch : List (LogEntry F)
  sinks : List (LogSink F)
  metrics : LogMetrics
  calls : List (Call F)
  processor : Processor F
  stopping : Stopping
  accepted : List (LogEntry F)

variable {F : Type}

def newBufferedLogger : State F := ⟨[], [], [], ⟨0, 0, 0⟩, [], .selecting, .running, []⟩

def State.addSink (s : State F) (sink : LogSink F) : State F :=
  { s with sinks := s.sinks ++ [sink] }

def start (sinks : Nat) : State F :=
  (List.replicate sinks ⟨[], false⟩).foldl State.addSink newBufferedLogger

variable (bufferSize batchSize : Nat) (s : State F)

def State.accept (entry : LogEntry F) : State F :=
  { s with buffer := s.buffer ++ [entry], accepted := s.accepted ++ [entry] }

def log (level : LogLevel) (now : Int) (message : String) (fields : F) : State F :=
  let entry := ⟨level, now, message, fields, "", "", "default", "localhost"⟩
  if s.buffer.length < bufferSize then { s.accept entry with calls := s.calls ++ [.sent] }
  else { s with calls := s.calls ++ [.waiting entry] }

/-- The second select of Log finds room. -/
def send (i : Nat) : Option (State F) :=
  match s.calls[i]? with
  | some (.waiting entry) =>
    if s.buffer.length < bufferSize then some { s.accept entry with calls := s.calls.set i .sent }
    else none
  | _ => none

/-- The second select of Log takes the timeout, which can have passed by any time. -/
def timeOut (i : Nat) : Option (State F) :=
  match s.calls[i]? with
  | some (.waiting _) => some { s with calls := s.calls.set i .timedOut }
  | _ => none

def count (i : Nat) : Option (State F) :=
  match s.calls[i]? with
  | some .sent =>
    some { s with
      calls := s.calls.set i .returned
      metrics := { s.metrics with totalLogs := s.metrics.totalLogs + 1 } }
  | some .timedOut =>
    some { s with
      calls := s.calls.set i .returned
      metrics := { s.metrics with droppedLogs := s.metrics.droppedLogs + 1 } }
  | _ => none

def State.resume : Resume → State F
  | .selecting => { s with processor := .selecting }
  | .returning => { s with processor := .returned }

/-- flushBatch up to its wait: one goroutine was started for each sink. -/
def State.flushBatch (resume : Resume) : State F :=
  if s.batch.length = 0 then s.resume resume
  else
    { s with
      batch := []
      metrics := { s.metrics with batchesSent := s.metrics.batchesSent + 1 }
      processor := .flushing s.batch (List.range s.sinks.length) resume }

def State.collect (entry : LogEntry F) (rest : List (LogEntry F)) : State F :=
  { s with buffer := rest, batch := s.batch ++ [entry] }

/-- The case of the select that takes an entry from the buffer. -/
def receive : Option (State F) :=
  match s.processor, s.buffer with
  | .selecting, entry :: rest =>
    let collected := s.collect entry rest
    if batchSize ≤ collected.batch.length then some (collected.flushBatch .selecting)
    else some collected
  | _, _ => none

def tick : Option (State F) :=
  match s.processor with
  | .selecting => if 0 < s.batch.length then some (s.flushBatch .selecting) else some s
  | _ => none

/-- The case of the select on the shutdown channel, which is ready once that is closed. -/
def noticeShutdown : Option (State F) :=
  match s.processor with
  | .selecting =>
    if s.stopping = .running then none else some { s with processor := .draining }
  | _ => none

/-- A pass of the loop that empties the buffer, or what follows the loop. -/
def drain : Option (State F) :=
  match s.processor, s.buffer with
  | .draining, entry :: rest => some (s.collect entry rest)
  | .draining, [] =>
    if 0 < s.batch.length then some (s.flushBatch .returning) else some (s.resume .returning)
  | _, _ => none

def LogSink.write (batchToSend : List (LogEntry F)) (sink : LogSink F) : LogSink F :=
  { sink with received := sink.received ++ [batchToSend] }

def LogSink.close (sink : LogSink F) : LogSink F := { sink with closed := true }

/-- The goroutine for the sink at position `k` writes. -/
def write (k : Nat) : Option (State F) :=
  match s.processor with
  | .flushing batchToSend writers resume =>
    if k ∈ writers then
      some { s with
        sinks := s.sinks.modify k (LogSink.write batchToSend)
        processor := .flushing batchToSend (writers.erase k) resume }
    else none
  | _ => none

def flushed : Option (State F) :=
  match s.processor with
  | .flushing _ [] resume => some (s.resume resume)
  | _ => none

def shutdown : Option (State F) :=
  match s.stopping with
  | .running => some { s with stopping := .waiting }
  | _ => none

/-- Shutdown goes on: its wait for processBatches ends, or it flushes and closes a sink. -/
def finish : Option (State F) :=
  match s.stopping, s.processor with
  | .waiting, .returned => some { s with stopping := .closing 0 }
  | .closing k, _ =>
    if k < s.sinks.length then
      some { s with
        sinks := s.sinks.modify k LogSink.close
        stopping := .closing (k + 1) }
    else some { s with stopping := .returned }
  | _, _ => none

inductive Event (F : Type)
  | log (level : LogLevel) (now : Int) (message : String) (fields : F)
  | send (i : Nat)
  | timeOut (i : Nat)
  | count (i : Nat)
  | receive
  | tick
  | noticeShutdown
  | drain
  | write (k : Nat)
  | flushed
  | shutdown
  | finish

def step (bufferSize batchSize : Nat) (s : State F) : Event F → Option (State F)
  | .log level now message fields => some (log bufferSize s level now message fields)
  | .send i => send bufferSize s i
  | .timeOut i => timeOut s i
  | .count i => count s i
  | .receive => receive batchSize s
  | .tick => tick s
  | .noticeShutdown => noticeShutdown s
  | .drain => drain s
  | .write k => write s k
  | .flushed => flushed s
  | .shutdown => shutdown s
  | .finish => finish s

/-- No call of Log starts once Shutdown has, and Shutdown starts when every call has returned. -/
def Alone (s : State F) : Event F → Prop
  | .log _ _ _ _ => s.stopping = .running
  | .shutdown => ∀ call ∈ s.calls, call = .returned
  | _ => True

def Logging (s : State F) (event : Event F) : Prop :=
  (∃ level now message fields, event = .log level now message fields) ∨
    ∃ call ∈ s.calls, call ≠ .returned

inductive Moves (s : State F) : Event F → State F → Prop
  | accept {event : Event F} (entry : LogEntry F) (calls : List (Call F))
      (logging : Logging s event) : Moves s event { s.accept entry with calls }
  | call {event : Event F} (calls : List (Call F)) (metrics : LogMetrics)
      (logging : Logging s event) : Moves s event { s with calls, metrics }
  | collect {event : Event F} (entry : LogEntry F) (rest : List (LogEntry F))
      (filled : s.buffer = entry :: rest)
      (phase : s.processor = .selecting ∨ s.processor = .draining) :
      Moves s event (s.collect entry rest)
  | fill (entry : LogEntry F) (rest : List (LogEntry F)) (selecting : s.processor = .selecting)
      (filled : s.buffer = entry :: rest) :
      Moves s .receive ((s.collect entry rest).flushBatch .selecting)
  | tick (selecting : s.processor = .selecting) (waiting : 0 < s.batch.length) :
      Moves s .tick (s.flushBatch .selecting)
  | idle : Moves s .tick s
  | notice (selecting : s.processor = .selecting) (stopped : s.stopping ≠ .running) :
      Moves s .noticeShutdown { s with processor := .draining }
  | leave (draining : s.processor = .draining) (empty : s.buffer = []) :
      Moves s .drain (s.flushBatch .returning)
  | write (k : Nat) (batchToSend : List (LogEntry F)) (writers : List Nat) (resume : Resume)
      (flushing : s.processor = .flushing batchToSend writers resume) (pending : k ∈ writers) :
      Moves s (.write k)
        { s with
          sinks := s.sinks.modify k (LogSink.write batchToSend)
          processor := .flushing batchToSend (writers.erase k) resume }
  | flushed (batchToSend : List (LogEntry F)) (resume : Resume)
      (flushing : s.processor = .flushing batchToSend [] resume) :
      Moves s .flushed (s.resume resume)
  | shutdown (running : s.stopping = .running) :
      Moves s .shutdown { s with stopping := .waiting }
  | await (waiting : s.stopping = .waiting) (returned : s.processor = .returned) :
      Moves s .finish { s with stopping := .closing 0 }
  | close (k : Nat) (closing : s.stopping = .closing k) (inside : k < s.sinks.length) :
      Moves s .finish
        { s with sinks := s.sinks.modify k LogSink.close, stopping := .closing (k + 1) }
  | finish (k : Nat) (closing : s.stopping = .closing k) :
      Moves s .finish { s with stopping := .returned }

variable {s t : State F} {e : Event F}

theorem logging_of_call {i : Nat} {c : Call F} (hit : s.calls[i]? = some c)
    (unfinished : c ≠ .returned) : Logging s e :=
  .inr ⟨c, mem_of_getElem? hit, unfinished⟩

theorem flushBatch_of_empty (empty : ¬ 0 < s.batch.length) (resume) :
    s.flushBatch resume = s.resume resume := by
  exact if_pos (Nat.eq_zero_of_not_pos empty)

theorem moves_of_step {bufferSize batchSize : Nat} (took : step bufferSize batchSize s e = some t) :
    Moves s e t := by
  cases e with
  | log level now msg fields =>
    cases took
    unfold log
    split
    · exact .accept _ _ (.inl ⟨level, now, msg, fields, rfl⟩)
    · exact .call _ s.metrics (.inl ⟨level, now, msg, fields, rfl⟩)
  | send i =>
    simp only [step, send] at took
    split at took
    next entry hit =>
      obtain ⟨-, took⟩ := ite_none_right_eq_some.mp took
      cases took
      exact .accept entry _ (logging_of_call hit nofun)
    · cases took
  | timeOut i =>
    simp only [step, timeOut] at took
    split at took <;> cases took
    rename_i entry hit
    exact .call _ s.metrics (logging_of_call hit nofun)
  | count i =>
    simp only [step, count] at took
    split at took
    next hit =>
      cases took
      exact .call _ _ (logging_of_call hit nofun)
    next hit =>
      cases took
      exact .call _ _ (logging_of_call hit nofun)
    · cases took
  | receive =>
    simp only [step, receive] at took
    split at took
    next entry rest selecting filled =>
      split at took <;> cases took
      · exact .fill entry rest selecting filled
      · exact .collect entry rest filled (.inl selecting)
    · cases took
  | tick =>
    simp only [step, tick] at took
    split at took
    next selecting =>
      split at took <;> cases took
      next waiting =>
        exact .tick selecting waiting
      · exact .idle
    · cases took
  | noticeShutdown =>
    simp only [step, noticeShutdown] at took
    split at took
    next selecting =>
      split at took <;> cases took
      rename_i halt
      exact .notice selecting halt
    · cases took
  | drain =>
    simp only [step, drain] at took
    split at took
    next entry rest draining filled =>
      cases took
      exact .collect entry rest filled (.inr draining)
    next draining empty =>
      split at took <;> cases took
      · exact .leave draining empty
      next bare =>
        exact flushBatch_of_empty bare .returning ▸ .leave draining empty
    · cases took
  | write k =>
    simp only [step, write] at took
    split at took
    next batchToSend writers resume flushing =>
      obtain ⟨pending, took⟩ := ite_none_right_eq_some.mp took
      cases took
      exact .write k batchToSend writers resume flushing pending
    · cases took
  | flushed =>
    simp only [step, flushed] at took
    split at took <;> cases took
    rename_i batchToSend resume flushing
    exact .flushed batchToSend resume flushing
  | shutdown =>
    simp only [step, shutdown] at took
    split at took <;> cases took
    rename_i running
    exact .shutdown running
  | finish =>
    simp only [step, finish] at took
    split at took
    next waiting returned =>
      cases took
      exact .await waiting returned
    next k closing =>
      split at took <;> cases took
      next lt =>
        exact .close k closing lt
      · exact .finish k closing
    · cases took

section

/-- What the goroutine for the sink at position `k` has yet to write. -/
def Processor.inFlight (k : Nat) : Processor F → List (LogEntry F)
  | .flushing batchToSend writers _ => if k ∈ writers then batchToSend else []
  | _ => []

/-- What a sink has received, what is being written to it, the batch and the buffer are together the
accepted entries, in their order. -/
structure Conveys (sinks : Nat) (s : State F) : Prop where
  added : s.sinks.length = sinks
  delivered : ∀ k sink, s.sinks[k]? = some sink →
    sink.received.flatten ++ s.processor.inFlight k ++ s.batch ++ s.buffer = s.accepted
  writers : ∀ batchToSend writers resume, s.processor = .flushing batchToSend writers resume →
    writers.Nodup

theorem foldl_addSink (s) (sinks : List (LogSink F)) :
    sinks.foldl State.addSink s = { s with sinks := s.sinks ++ sinks } := by
  induction sinks generalizing s with
  | nil => rw [foldl_nil, append_nil]
  | cons sink sinks ih =>
    rw [foldl_cons, ih]
    simp only [State.addSink, append_assoc, singleton_append]

theorem start_eq (sinks) :
    (start sinks : State F) =
      { newBufferedLogger with sinks := List.replicate sinks ⟨[], false⟩ } :=
  foldl_addSink newBufferedLogger _

theorem conveys_start (sinks) : Conveys sinks (start sinks : State F) := by
  rw [start_eq]
  refine ⟨length_replicate, fun k sink hit => ?_, nofun⟩
  rw [eq_of_mem_replicate (mem_of_getElem? hit)]
  rfl

variable {sinks : Nat} (conveys : Conveys sinks s)
include conveys

theorem Conveys.accept (entry) :
    Conveys sinks (s.accept entry) where
  added := conveys.added
  delivered := by
    intro k sink hit
    have pre := conveys.delivered k sink hit
    simp only [State.accept, ← pre, append_assoc]
  writers := conveys.writers

theorem Conveys.collect {entry rest} (filled : s.buffer = entry :: rest) :
    Conveys sinks (s.collect entry rest) where
  added := conveys.added
  delivered := by
    intro k sink hit
    have pre := conveys.delivered k sink hit
    rw [filled] at pre
    simpa only [State.collect, append_assoc, singleton_append] using pre
  writers := conveys.writers

theorem Conveys.resume (quiet : ∀ k, s.processor.inFlight k = []) (resume) :
    Conveys sinks (s.resume resume) := by
  have delivered : ∀ (k : Nat) (sink : LogSink F), s.sinks[k]? = some sink →
      sink.received.flatten ++ [] ++ s.batch ++ s.buffer = s.accepted := by
    intro k sink hit
    rw [← quiet k]
    exact conveys.delivered k sink hit
  cases resume with
  | selecting | returning => exact ⟨conveys.added, delivered, nofun⟩

theorem Conveys.flushBatch (quiet : ∀ k, s.processor.inFlight k = []) (resume) :
    Conveys sinks (s.flushBatch resume) := by
  unfold State.flushBatch
  split
  · exact conveys.resume quiet resume
  · refine ⟨conveys.added, fun k sink hit => ?_, fun batchToSend writers after flushing => ?_⟩
    · have pre := conveys.delivered k sink hit
      have lt := (List.getElem?_eq_some_iff.mp hit).1
      rw [quiet k, append_nil] at pre
      have started := mem_range.mpr lt
      simpa only [Processor.inFlight, if_pos started, append_nil] using pre
    · cases flushing
      exact nodup_range

theorem Conveys.write {batchToSend writers resume}
    (flushing : s.processor = .flushing batchToSend writers resume) {k} (pending : k ∈ writers) :
    Conveys sinks { s with
      sinks := s.sinks.modify k (LogSink.write batchToSend)
      processor := .flushing batchToSend (writers.erase k) resume } := by
  have distinct := conveys.writers batchToSend writers resume flushing
  refine ⟨(length_modify ..).trans conveys.added, fun j sink found => ?_, fun _ _ _ eq => ?_⟩
  · rw [getElem?_modify] at found
    obtain ⟨old, hit, rfl⟩ := map_eq_some_iff.mp found
    have pre := conveys.delivered j old hit
    rw [flushing] at pre
    by_cases eq : k = j
    · subst eq
      simp only [Processor.inFlight, if_pos pending] at pre
      simpa [LogSink.write, Processor.inFlight, distinct.mem_erase_iff] using pre
    · simpa [Processor.inFlight, eq, mem_erase_of_ne (Ne.symm eq)] using pre
  · cases eq
    exact distinct.erase k

theorem Conveys.close (k : Nat) (stopping : Stopping) :
    Conveys sinks { s with sinks := s.sinks.modify k LogSink.close, stopping } := by
  refine ⟨(length_modify ..).trans conveys.added, fun j sink found => ?_, conveys.writers⟩
  rw [getElem?_modify] at found
  obtain ⟨old, hit, rfl⟩ := map_eq_some_iff.mp found
  have pre := conveys.delivered j old hit
  split <;> exact pre

theorem Conveys.moves {e t} (moves : Moves s e t) : Conveys sinks t := by
  cases moves with
  | accept entry cs => exact ⟨conveys.added, (conveys.accept entry).delivered, conveys.writers⟩
  | call cs metrics | shutdown | await | finish k =>
    exact ⟨conveys.added, conveys.delivered, conveys.writers⟩
  | collect entry rest filled => exact conveys.collect filled
  | fill entry rest selecting filled =>
    refine (conveys.collect filled).flushBatch (fun k => ?_) .selecting
    show s.processor.inFlight k = []
    rw [selecting]
    rfl
  | tick selecting => exact conveys.flushBatch (fun k => by rw [selecting]; rfl) .selecting
  | idle => exact conveys
  | notice selecting =>
    refine ⟨conveys.added, fun k sink hit => ?_, nofun⟩
    have pre := conveys.delivered k sink hit
    rw [selecting] at pre
    exact pre
  | leave draining => exact conveys.flushBatch (fun k => by rw [draining]; rfl) .returning
  | write k batchToSend writers resume flushing pending => exact conveys.write flushing pending
  | flushed batchToSend resume flushing =>
    refine conveys.resume (fun k => ?_) resume
    simp only [flushing, Processor.inFlight, not_mem_nil, if_false]
  | close k => exact conveys.close k _

end

end AsyncPractice.BufferedLogger
