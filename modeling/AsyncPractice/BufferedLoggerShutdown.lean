import AsyncPractice.BufferedLogger
import AsyncPractice.Runs

/- What the sinks have received when Shutdown returns, and that it does. -/
namespace AsyncPractice.BufferedLogger

open Option List Runs

variable {F : Type}

section

/-- processBatches has left its select for good. -/
def Processor.leaving : Processor F → Bool
  | .draining => true
  | .flushing _ _ .returning => true
  | .returned => true
  | _ => false

/-- processBatches is past the loop that empties the buffer. -/
def Processor.drained : Processor F → Bool
  | .flushing _ _ .returning => true
  | .returned => true
  | _ => false

theorem leaving_of_drained {processor : Processor F} (drained : processor.drained = true) :
    processor.leaving = true := by
  unfold Processor.drained at drained
  split at drained
  · rfl
  · rfl
  · cases drained

/-- What Shutdown relies on when no call of Log overlaps or follows it. -/
structure Closes (s : State F) : Prop where
  returned : s.stopping ≠ .running → ∀ call ∈ s.calls, call = .returned
  leaving : s.processor.leaving = true → s.stopping ≠ .running
  drained : s.processor.drained = true → s.batch = [] ∧ s.buffer = []
  awaited : s.stopping = .running ∨ s.stopping = .waiting ∨ s.processor = .returned
  closing : ∀ k, s.stopping = .closing k → k ≤ s.sinks.length

theorem closes_start (sinks) : Closes (start sinks : State F) := by
  rw [start_eq]
  exact ⟨fun halt => absurd rfl halt, by simp [newBufferedLogger, Processor.leaving],
    by simp [newBufferedLogger, Processor.drained], .inl rfl, by simp [newBufferedLogger]⟩

variable (s : State F) (resume : Resume)

theorem resume_frame : (s.resume resume).stopping = s.stopping ∧
    (s.resume resume).calls = s.calls ∧ (s.resume resume).sinks = s.sinks ∧
    (s.resume resume).buffer = s.buffer ∧ (s.resume resume).batch = s.batch := by
  cases resume <;> exact ⟨rfl, rfl, rfl, rfl, rfl⟩

theorem flushBatch_frame : (s.flushBatch resume).stopping = s.stopping ∧
    (s.flushBatch resume).calls = s.calls ∧ (s.flushBatch resume).sinks = s.sinks ∧
    (s.flushBatch resume).buffer = s.buffer ∧ (s.flushBatch resume).batch = [] := by
  unfold State.flushBatch
  split
  next empty =>
    rw [← eq_nil_of_length_eq_zero empty]
    exact resume_frame s resume
  · exact ⟨rfl, rfl, rfl, rfl, rfl⟩

theorem flushBatch_selecting : (s.flushBatch .selecting).processor.leaving = false := by
  unfold State.flushBatch
  split <;> rfl

variable {s t : State F} (inv : Closes s)
include inv

theorem Closes.running (running : s.stopping = .running) (stopping : t.stopping = s.stopping)
    (processor : t.processor = s.processor) : Closes t := by
  have lt : t.processor.leaving ≠ true := by
    rw [processor]
    exact fun leaving => inv.leaving leaving running
  rw [running] at stopping
  refine ⟨fun halt => absurd stopping halt, fun leaving => absurd leaving lt,
    fun drained => absurd (leaving_of_drained drained) lt, .inl stopping, fun k closing => ?_⟩
  rw [stopping] at closing
  cases closing

theorem Closes.process (active : s.processor ≠ .returned) (halt : t.stopping = s.stopping)
    (cs : t.calls = s.calls) (sinks : t.sinks.length = s.sinks.length)
    (leaving : t.processor.leaving = true → s.stopping ≠ .running)
    (drained : t.processor.drained = true → t.batch = [] ∧ t.buffer = []) : Closes t := by
  refine ⟨?_, ?_, drained, ?_, ?_⟩
  · rw [halt, cs]
    exact inv.returned
  · rw [halt]
    exact leaving
  · rw [halt]
    rcases inv.awaited with running | waiting | returned
    · exact .inl running
    · exact .inr (.inl waiting)
    · exact absurd returned active
  · rw [halt, sinks]
    exact inv.closing

theorem Closes.select (active : s.processor ≠ .returned) (halt : t.stopping = s.stopping)
    (cs : t.calls = s.calls) (sinks : t.sinks.length = s.sinks.length)
    (lt : t.processor.leaving = false) : Closes t := by
  refine inv.process active halt cs sinks (fun leaving => ?_) fun drained => ?_
  · rw [lt] at leaving
    cases leaving
  · rw [leaving_of_drained drained] at lt
    cases lt

theorem Closes.stop (idle : ∀ call ∈ s.calls, call = .returned) {sinks stopping}
    (halt : stopping ≠ .running) (awaited : stopping = .waiting ∨ s.processor = .returned)
    (closing : ∀ k, stopping = .closing k → k ≤ sinks.length) : Closes { s with sinks, stopping } :=
  ⟨fun _ => idle, fun _ => halt, inv.drained, .inr awaited, closing⟩

variable {event : Event F}

theorem Closes.running_of_logging (alone : Alone s event) (logging : Logging s event) :
    s.stopping = .running := by
  rcases logging with ⟨level, now, msg, fields, rfl⟩ | ⟨c, mem, unfinished⟩
  · exact alone
  · by_contra stopped
    exact unfinished (inv.returned stopped c mem)

theorem Closes.moves (alone : Alone s event) (moves : Moves s event t) : Closes t := by
  cases moves with
  | accept e cs logging | call cs metrics logging =>
    exact inv.running (inv.running_of_logging alone logging) rfl rfl
  | collect e rest filled phase =>
    rcases phase with selecting | draining
    · refine inv.select (by simp [selecting]) rfl rfl rfl ?_
      rw [State.collect, selecting]
      rfl
    · refine inv.process (by simp [draining]) rfl rfl rfl inv.leaving fun drained => ?_
      simp only [State.collect, draining, Processor.drained, Bool.false_eq_true] at drained
  | fill e rest selecting filled =>
    obtain ⟨stopping, cs, sinks, -⟩ := flushBatch_frame (s.collect e rest) .selecting
    exact inv.select (by simp [selecting]) stopping cs (congrArg length sinks)
      (flushBatch_selecting _)
  | tick selecting =>
    obtain ⟨stopping, cs, sinks, -⟩ := flushBatch_frame s .selecting
    exact inv.select (by simp [selecting]) stopping cs (congrArg length sinks)
      (flushBatch_selecting s)
  | idle => exact inv
  | notice selecting halt =>
    exact inv.process (by simp [selecting]) rfl rfl rfl (fun _ => halt)
      (by simp [Processor.drained])
  | leave draining empty =>
    obtain ⟨stopping, cs, sinks, buffer, batch⟩ := flushBatch_frame s .returning
    have halt := inv.leaving (by rw [draining]; rfl)
    exact inv.process (by simp [draining]) stopping cs (congrArg length sinks)
      (fun _ => halt) fun _ => ⟨batch, buffer.trans empty⟩
  | write k batchToSend writers resume flushing pending =>
    have leaving := inv.leaving
    have drained := inv.drained
    rw [flushing] at leaving drained
    refine inv.process (by simp [flushing]) rfl rfl (length_modify ..) ?_ ?_
    · cases resume <;> exact leaving
    · cases resume <;> exact drained
  | flushed batchToSend resume flushing =>
    have leaving := inv.leaving
    have drained := inv.drained
    rw [flushing] at leaving drained
    have active : s.processor ≠ .returned := by simp [flushing]
    cases resume with
    | selecting => exact inv.select active rfl rfl rfl rfl
    | returning => exact inv.process active rfl rfl rfl leaving drained
  | shutdown running => exact inv.stop alone (by simp) (.inl rfl) (by simp)
  | await wait ret =>
    have idle := inv.returned (by simp [wait])
    refine inv.stop idle (by simp) (.inr ret) fun k closing => ?_
    cases closing
    exact Nat.zero_le _
  | close k closing lt =>
    have idle := inv.returned (by simp [closing])
    have ret : s.processor = .returned := by simpa [closing] using inv.awaited
    refine inv.stop idle (by simp) (.inr ret) fun j moved => ?_
    cases moved
    rw [length_modify]
    exact lt
  | finish k closing =>
    have idle := inv.returned (by simp [closing])
    have ret : s.processor = .returned := by simpa [closing] using inv.awaited
    exact inv.stop idle (by simp) (.inr ret) (by simp)

end

/-- A bound on the steps of processBatches from its select on, once Shutdown has started and apart
from ticks: each entry of the buffer can cost a flush, and so can the batch. -/
def awaiting (sinks buffered batched : Nat) : Nat :=
  buffered * (sinks + 4) + (if batched = 0 then 0 else sinks + 3) + (sinks + 3)

def Processor.left (sinks buffered batched : Nat) : Processor F → Nat
  | .selecting => awaiting sinks buffered batched
  | .flushing _ writers .selecting => writers.length + 1 + awaiting sinks buffered batched
  | .draining => buffered + sinks + 2
  | .flushing _ writers .returning => writers.length + 1
  | .returned => 0

def Stopping.left (sinks : Nat) : Stopping → Nat
  | .running => sinks + 3
  | .waiting => sinks + 2
  | .closing k => sinks + 1 - k
  | .returned => 0

/-- A bound on the steps other than ticks that are left once Shutdown has started. -/
def State.left (s : State F) : Nat :=
  s.processor.left s.sinks.length s.buffer.length s.batch.length + s.stopping.left s.sinks.length

def Event.isTick : Event F → Bool
  | .tick => true
  | _ => false

variable {s t : State F}

theorem flushBatch_left_selecting (s : State F) :
    (s.flushBatch .selecting).left ≤ s.sinks.length + 1 +
      awaiting s.sinks.length s.buffer.length 0 + s.stopping.left s.sinks.length := by
  unfold State.flushBatch
  split
  next empty =>
    simp only [State.resume, State.left, Processor.left, empty]
    omega
  · simp only [State.left, Processor.left, length_range, length_nil]
    exact Nat.le_refl _

theorem flushBatch_left_returning (s : State F) :
    (s.flushBatch .returning).left ≤ s.sinks.length + 1 + s.stopping.left s.sinks.length := by
  unfold State.flushBatch
  split
  · simp only [State.resume, State.left, Processor.left]
    omega
  · simp only [State.left, Processor.left, length_range]
    exact Nat.le_refl _

theorem collect_awaiting (sinks rest batched) :
    awaiting sinks rest (batched + 1) + 1 ≤ awaiting sinks (rest + 1) batched := by
  simp only [awaiting, Nat.succ_mul]
  split <;> split <;> omega

theorem flush_awaiting (sinks rest batched) :
    sinks + 1 + awaiting sinks rest 0 + 1 ≤ awaiting sinks (rest + 1) batched := by
  simp only [awaiting, Nat.succ_mul, if_true]
  omega

theorem tick_awaiting (sinks buffered) {batched} (wait : 0 < batched) :
    sinks + 1 + awaiting sinks buffered 0 ≤ awaiting sinks buffered batched := by
  simp only [awaiting, if_neg (Nat.ne_of_gt wait), if_true]
  omega

theorem drain_awaiting (sinks buffered batched) :
    buffered + sinks + 2 + 1 ≤ awaiting sinks buffered batched := by
  have enough := Nat.le_mul_of_pos_right buffered (show 0 < sinks + 4 by omega)
  unfold awaiting
  omega

/-- Once Shutdown has started, every step but a tick brings its end closer. -/
theorem Closes.spends (inv : Closes s) (halt : s.stopping ≠ .running) {event}
    (alone : Alone s event) (moves : Moves s event t) :
    t.stopping ≠ .running ∧ (t.left < s.left ∨ event = .tick ∧ t.left ≤ s.left) := by
  cases moves with
  | accept e cs logging | call cs metrics logging =>
    exact absurd (inv.running_of_logging alone logging) halt
  | collect e rest filled phase =>
    refine ⟨halt, Or.inl ?_⟩
    have spent := collect_awaiting s.sinks.length rest.length s.batch.length
    rcases phase with selecting | draining
    · simp only [State.left, State.collect, selecting, filled, Processor.left, length_append,
        length_cons, length_nil, Nat.zero_add]
      omega
    · simp only [State.left, State.collect, draining, filled, Processor.left, length_cons]
      omega
  | fill e rest selecting filled =>
    have eq := (flushBatch_frame (s.collect e rest) .selecting).1
    refine ⟨ne_of_eq_of_ne eq halt, Or.inl ?_⟩
    have flush := flushBatch_left_selecting (s.collect e rest)
    have spent := flush_awaiting s.sinks.length rest.length s.batch.length
    refine Nat.lt_of_le_of_lt flush ?_
    simp only [State.left, State.collect, selecting, filled, Processor.left, length_cons]
    omega
  | tick selecting wait =>
    refine ⟨ne_of_eq_of_ne (flushBatch_frame s .selecting).1 halt, .inr ⟨rfl, ?_⟩⟩
    have spent := tick_awaiting s.sinks.length s.buffer.length wait
    refine Nat.le_trans (flushBatch_left_selecting s) ?_
    simp only [State.left, selecting, Processor.left]
    omega
  | idle => exact ⟨halt, .inr ⟨rfl, Nat.le_refl _⟩⟩
  | notice selecting =>
    refine ⟨halt, Or.inl ?_⟩
    have spent := drain_awaiting s.sinks.length s.buffer.length s.batch.length
    simp only [State.left, selecting, Processor.left]
    omega
  | leave draining empty =>
    refine ⟨ne_of_eq_of_ne (flushBatch_frame s .returning).1 halt, Or.inl ?_⟩
    refine Nat.lt_of_le_of_lt (flushBatch_left_returning s) ?_
    simp only [State.left, draining, Processor.left]
    omega
  | write k batchToSend writers resume flushing pending =>
    refine ⟨halt, Or.inl ?_⟩
    have fewer := length_erase_of_mem pending
    have wait := length_pos_of_mem pending
    cases resume <;> simp only [State.left, flushing, Processor.left, length_modify] <;> omega
  | flushed batchToSend resume flushing =>
    cases resume <;> refine ⟨halt, Or.inl ?_⟩ <;>
      simp only [State.left, State.resume, flushing, Processor.left] <;> omega
  | shutdown running => exact absurd running halt
  | await wait ret =>
    refine ⟨by simp, Or.inl ?_⟩
    simp only [State.left, wait, Stopping.left]
    omega
  | close k closing lt =>
    refine ⟨by simp, Or.inl ?_⟩
    simp only [State.left, closing, Stopping.left, length_modify]
    omega
  | finish k closing =>
    have lt := inv.closing k closing
    refine ⟨by simp, Or.inl ?_⟩
    simp only [State.left, closing, Stopping.left]
    omega

/-- Shutdown is never stuck. -/
theorem enabled_of_stopping (bufferSize batchSize) (halt : s.stopping ≠ .running)
    (unfinished : s.stopping ≠ .returned) :
    ∃ event, event.isTick = false ∧ Alone s event ∧
      (step bufferSize batchSize s event).isSome = true := by
  cases phase : s.processor with
  | selecting =>
    exact ⟨.noticeShutdown, rfl, trivial, by simp [step, noticeShutdown, phase, halt]⟩
  | flushing batchToSend writers resume =>
    cases writers with
    | nil => exact ⟨.flushed, rfl, trivial, by simp [step, flushed, phase]⟩
    | cons k writers => exact ⟨.write k, rfl, trivial, by simp [step, write, phase]⟩
  | draining =>
    refine ⟨.drain, rfl, trivial, ?_⟩
    cases filled : s.buffer with
    | nil =>
      simp only [step, drain, phase, filled]
      split <;> rfl
    | cons e rest => simp only [step, drain, phase, filled, isSome_some]
  | returned =>
    refine ⟨.finish, rfl, trivial, ?_⟩
    cases stage : s.stopping with
    | running => exact absurd stage halt
    | waiting => simp only [step, finish, phase, stage, isSome_some]
    | closing k =>
      simp only [step, finish, stage]
      split <;> rfl
    | returned => exact absurd stage unfinished

variable {bufferSize batchSize sinks : Nat} {events : List (Event F)} {final : State F}

theorem run_conveys (run : exec (step bufferSize batchSize) (start sinks) events = some final) :
    Conveys sinks final :=
  exec_invariant (Conveys sinks) (conveys_start sinks)
    (fun _ _ _ conveys took => conveys.moves (moves_of_step took)) run

theorem run_closes (run : exec (step bufferSize batchSize) (start sinks) events = some final)
    (alone : Along (step bufferSize batchSize) Alone (start sinks) events) : Closes final :=
  exec_guarded Closes (closes_start sinks)
    (fun _ _ _ inv alone took => inv.moves alone (moves_of_step took)) run alone

theorem received_of_returned (conveys : Conveys sinks final) (inv : Closes final)
    (ret : final.stopping = .returned) {sink} (mem : sink ∈ final.sinks) :
    sink.received.flatten = final.accepted := by
  have ended : final.processor = .returned := by simpa [ret] using inv.awaited
  obtain ⟨batch, buffer⟩ := inv.drained (by rw [ended]; rfl)
  obtain ⟨k, hit⟩ := mem_iff_getElem?.mp mem
  have delivered := conveys.delivered k sink hit
  simpa only [ended, batch, buffer, Processor.inFlight, append_nil] using delivered

theorem stopping_bounded (inv : Closes final) (halt : final.stopping ≠ .running) {more last}
    (run : exec (step bufferSize batchSize) final more = some last)
    (alone : Along (step bufferSize batchSize) Alone final more) :
    more.countP (fun event => !event.isTick) ≤ final.left := by
  have bounded := exec_bounded (fun s => Closes s ∧ s.stopping ≠ .running) State.left
    (fun event => !event.isTick) ⟨inv, halt⟩ ?_ run alone
  · exact Nat.le_trans (Nat.le_add_left _ _) bounded.2
  · intro s event t held alone took
    have moves := moves_of_step took
    obtain ⟨still, spent⟩ := held.1.spends held.2 alone moves
    refine ⟨⟨held.1.moves alone moves, still⟩, spent.imp_right ?_⟩
    rintro ⟨rfl, kept⟩
    exact ⟨rfl, kept⟩

/-- Each sink that was added receives the accepted entries in batches that put together are the
entries in their order, none lost and none twice, by the time Shutdown returns; and Shutdown
returns: once it has started some step other than a tick can be taken until it has, and only
boundedly many can. -/
theorem accepted_entries_delivered
    (run : exec (step bufferSize batchSize) (start sinks) events = some final)
    (alone : Along (step bufferSize batchSize) Alone (start sinks) events) :
    final.sinks.length = sinks ∧
      (final.stopping = .returned → ∀ sink ∈ final.sinks, sink.received.flatten = final.accepted) ∧
      (final.stopping ≠ .running →
        (final.stopping ≠ .returned → ∃ event, event.isTick = false ∧ Alone final event ∧
          (step bufferSize batchSize final event).isSome = true) ∧
        ∀ more last, exec (step bufferSize batchSize) final more = some last →
          Along (step bufferSize batchSize) Alone final more →
          more.countP (fun event => !event.isTick) ≤ final.left) := by
  have conveys := run_conveys run
  have closes := run_closes run alone
  refine ⟨conveys.added, fun returned sink member => ?_, fun stopped => ⟨?_, ?_⟩⟩
  · exact received_of_returned conveys closes returned member
  · exact enabled_of_stopping bufferSize batchSize stopped
  · exact fun more last => stopping_bounded closes stopped

/-- At any time, also without a Shutdown, what a sink has received is the beginning of what was
accepted. -/
theorem received_prefix
    (run : exec (step bufferSize batchSize) (start sinks) events = some final) :
    ∀ sink ∈ final.sinks, sink.received.flatten <+: final.accepted := by
  intro sink mem
  obtain ⟨k, hit⟩ := List.mem_iff_getElem?.mp mem
  have parts := (run_conveys run).delivered k sink hit
  rw [List.append_assoc, List.append_assoc] at parts
  exact ⟨_, parts⟩

def Call.isReturned : Call F → Bool
  | .returned => true
  | _ => false

instance (s : State F) (event : Event F) : Decidable (Alone s event) :=
  match event with
  | .log _ _ _ _ => inferInstanceAs (Decidable (_ = _))
  | .shutdown =>
    decidable_of_iff (∀ call ∈ s.calls, call.isReturned = true) <| by
      refine forall_congr' fun call => imp_congr_right fun _ => ?_
      cases call <;> simp [Call.isReturned]
  | .send _ | .timeOut _ | .count _ | .receive | .tick | .noticeShutdown | .drain | .write _
  | .flushed | .finish => isTrue trivial

/-- Three entries go through a buffer and batches of size one and two; the last is left in the
buffer for Shutdown to find. -/
def threeEntries : List (Event Unit) :=
  [.log .INFO 1 "a" (), .log .INFO 2 "b" (), .receive, .send 1, .count 0, .receive, .write 1,
    .log .WARN 3 "c" (), .write 0, .flushed, .count 1, .count 2, .shutdown, .noticeShutdown, .drain,
    .drain, .write 0, .write 1, .flushed, .finish, .finish, .finish, .finish]

theorem three_entries_delivered :
    ∃ final, exec (step 1 2) (start 2) threeEntries = some final ∧
      final.accepted.map LogEntry.message = ["a", "b", "c"] ∧
      ∀ sink ∈ final.sinks, sink.received.flatten = final.accepted := by
  refine exists_exec (fun s => s.stopping = .returned ∧
    s.accepted.map LogEntry.message = ["a", "b", "c"]) (by decide +kernel) ?_
  intro final run ⟨returned, messages⟩
  refine ⟨messages, (accepted_entries_delivered run ?_).2.1 returned⟩
  exact along_of_decide (by decide +kernel)

theorem received_prefix_midway :
    ∃ s, exec (step 1 2) (start 2) (threeEntries.take 8) = some s ∧
      ∀ sink ∈ s.sinks, sink.received.flatten <+: s.accepted :=
  exists_exec (fun _ => True) (by decide +kernel) fun _ run _ => received_prefix run

end AsyncPractice.BufferedLogger
