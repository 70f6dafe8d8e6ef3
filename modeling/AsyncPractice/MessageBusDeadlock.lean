import AsyncPractice.MessageBusLocks

/- The circular wait between JoinGroup, which locks the bus and then a group, and rebalance, which
locks a group and then reads the bus. -/
namespace AsyncPractice.MessageBusLocks

open List MessageBus Runs
open RWMutex (Accounts)

variable {O : Type}

def Call.Holds (call : Call O) (lock : Lock) : Prop := ∃ mode, (lock, mode) ∈ call.held

def Call.WaitsFor (call : Call O) (lock : Lock) : Prop := ∃ mode, call.op = .acquire lock mode

/-- One call holds mb.mu and waits for a group's mu while another holds that and waits for mb.mu. -/
def Circular (s : State O) : Prop :=
  ∃ first ∈ s.calls, ∃ second ∈ s.calls, ∃ groupID,
    first.Holds .bus ∧ first.WaitsFor (.group groupID) ∧
    second.Holds (.group groupID) ∧ second.WaitsFor .bus

/-- JoinGroup locks the bus while no rebalance of its group has a topic left to look up, and a
rebalance with topics to look up locks its group while no JoinGroup on its way to it has locked the
bus. -/
def Ordered (s : State O) : Event O → Prop
  | .start _ => True
  | .advance i choice =>
    match s.calls[i]? with
    | some (.join groupID _ _) => (s.bus.mb.groups.lookup groupID).isSome = true →
        ∀ call ∈ s.calls, call.collects ≠ some groupID
    | some (.rebalanceLocking groupID) => ∀ group, s.bus.mb.groups.lookup groupID = some group →
        subscriptions group.consumers choice.orders.collecting ≠ [] →
        ∀ call ∈ s.calls, call.joins ≠ some groupID
    | _ => True

variable {s t : State O} {call : Call O} {g : String} {e : Event O}

theorem joins_iff : call.Holds .bus ∧ call.WaitsFor (.group g) ↔ call.joins = some g := by
  unfold Call.Holds Call.WaitsFor
  cases call with
  | rebalanceCollecting id topics topicPartitions | healthMarking id now order
  | consumeVisiting id attempts visits => simp [Call.held, Call.joins]
  | _ => simp [Call.held, Call.op, Call.joins]

theorem collects_iff_waits :
    call.Holds (.group g) ∧ call.WaitsFor .bus ↔ call.collects = some g := by
  unfold Call.Holds Call.WaitsFor
  cases call with
  | rebalanceCollecting id topics tps =>
    cases topics <;> simp [Call.held, Call.op, Call.collects, eq_comm]
  | healthMarking id now order =>
    cases order <;> simp [Call.held, Call.op, Call.collects]
  | consumeVisiting id attempts visits => simp [Call.held, Call.collects]
  | _ => simp [Call.held, Call.op, Call.collects]

theorem circular_iff : Circular s ↔ ∃ g, (∃ call ∈ s.calls, call.joins = some g) ∧
      ∃ call ∈ s.calls, call.collects = some g := by
  constructor
  · rintro ⟨x, mem, y, other, g, holds, waits, held, waited⟩
    exact ⟨g, ⟨x, mem, joins_iff.mp ⟨holds, waits⟩⟩, y, other, collects_iff_waits.mp ⟨held, waited⟩⟩
  · rintro ⟨g, ⟨x, mem, joins⟩, y, other, collects⟩
    obtain ⟨holds, waits⟩ := joins_iff.mpr joins
    obtain ⟨held, waited⟩ := collects_iff_waits.mpr collects
    exact ⟨x, mem, y, other, g, holds, waits, held, waited⟩

theorem bus_of_joins (joins : call.joins = some g) : (.bus, .write) ∈ call.held := by
  cases call with
  | joinLocking id c topics now => exact mem_cons_self
  | _ => cases joins

theorem group_of_collects (collects : call.collects = some g) : (.group g, .write) ∈ call.held := by
  cases call with
  | rebalanceCollecting id topics tps =>
    obtain ⟨rfl, -⟩ := collects_iff.mp collects
    exact mem_cons_self
  | _ => cases collects

theorem not_collects_of_joins (joins : call.joins = some g) : call.collects ≠ some g := by
  cases call with
  | joinLocking id c topics now => exact nofun
  | _ => cases joins

theorem not_circular_step (inv : Accounts Call.held s.locks s.calls) (clear : ¬ Circular s)
    (ord : Ordered s e) (took : step s e = some t) : ¬ Circular t := by
  rw [circular_iff] at clear ⊢
  rintro ⟨g, ⟨x, mem, joins⟩, second, other, collects⟩
  cases e with
  | start call =>
    obtain ⟨-, joinless, collectless, rfl⟩ := start_inv took
    rcases mem_append.mp mem with old | new
    · rcases mem_append.mp other with before | begun
      · exact clear ⟨g, ⟨x, old, joins⟩, second, before, collects⟩
      · rw [mem_singleton.mp begun, collectless] at collects
        cases collects
    · rw [mem_singleton.mp new, joinless] at joins
      cases joins
  | advance i choice =>
    obtain ⟨call, locks, effect, here, applied, done, rfl⟩ := advance_inv took
    have lawful := effect_lawful done
    unfold Ordered at ord
    dsimp only at ord
    rcases Pool.mem_cases mem with old | rfl | begun
    · rcases Pool.mem_cases other with before | rfl | begun
      · exact clear ⟨g, ⟨x, old, joins⟩, second, before, collects⟩
      · rcases lawful.collects g collects with ⟨_, _, _, rfl⟩ | ⟨rfl, group, hit, left⟩
        · -- The reader of the bus keeps out every call that would lock it.
          exact inv.excludes (mem_of_getElem? here) mem_cons_self old (bus_of_joins joins)
        · rw [here] at ord
          exact ord group hit left x old joins
      · obtain ⟨_, rfl⟩ := lawful.begins second begun
        cases collects
    · obtain ⟨exists_group, c, topics, rfl⟩ := lawful.joins g joins
      rw [here] at ord
      rcases Pool.mem_cases other with before | same | begun
      · exact ord exists_group second before collects
      · exact not_collects_of_joins joins (same ▸ collects)
      · obtain ⟨_, rfl⟩ := lawful.begins second begun
        cases collects
    · obtain ⟨_, rfl⟩ := lawful.begins x begun
      cases joins

theorem ordered_of_step (took : step s e = some t) (clear : ¬ Circular t) : Ordered s e := by
  rw [circular_iff] at clear
  cases e with
  | start call => trivial
  | advance i choice =>
    obtain ⟨call, locks, effect, here, applied, done, rfl⟩ := advance_inv took
    have stays : ∀ x ∈ s.calls, x ≠ call → x ∈ s.calls.set i effect.next ++ effect.started :=
      fun x mem ne => mem_append_left _ (Pool.mem_of_ne here mem ne)
    have moved : effect.next ∈ s.calls.set i effect.next ++ effect.started :=
      mem_append_left _ (Pool.mem_moved here)
    unfold Ordered
    dsimp only
    rw [here]
    cases call with
    | join g c topics =>
      intro hit x mem collects
      obtain ⟨group, found⟩ := Option.isSome_iff_exists.mp hit
      simp only [Call.effect, found, Option.some.injEq] at done
      subst done
      refine clear ⟨g, ⟨_, moved, rfl⟩, x, stays x mem ?_, collects⟩
      rintro rfl
      cases collects
    | rebalanceLocking g =>
      intro group found left x mem joins
      obtain ⟨eq, hit, done⟩ := Option.bind_eq_some_iff.mp done
      rw [found, Option.some.injEq] at hit
      subst hit
      obtain ⟨-, rfl⟩ := guard_some.mp done
      refine clear ⟨g, ⟨x, stays x mem ?_, joins⟩, _, moved, ?_⟩
      · rintro rfl
        cases joins
      · exact collects_iff.mpr ⟨rfl, left⟩
    | _ => trivial

/-- A circular wait lasts: each of the two calls holds what the other waits for. -/
theorem circular_step (inv : Accounts Call.held s.locks s.calls) (circular : Circular s)
    (took : step s e = some t) : Circular t := by
  rw [circular_iff] at circular ⊢
  obtain ⟨g, ⟨x, mem, joins⟩, y, other, collects⟩ := circular
  cases e with
  | start call =>
    obtain ⟨-, -, -, rfl⟩ := start_inv took
    exact ⟨g, ⟨x, mem_append_left _ mem, joins⟩, y, mem_append_left _ other, collects⟩
  | advance i choice =>
    obtain ⟨call, locks, effect, here, applied, done, rfl⟩ := advance_inv took
    obtain ⟨-, mode, waits⟩ := joins_iff.mpr joins
    obtain ⟨-, kind, waited⟩ := collects_iff_waits.mpr collects
    have left : x ≠ call := by
      rintro rfl
      rw [waits, Op.apply, inv.blocked other (group_of_collects collects)] at applied
      cases applied
    have right : y ≠ call := by
      rintro rfl
      rw [waited, Op.apply, inv.blocked mem (bus_of_joins joins)] at applied
      cases applied
    exact ⟨g, ⟨x, mem_append_left _ (Pool.mem_of_ne here mem left), joins⟩,
      y, mem_append_left _ (Pool.mem_of_ne here other right), collects⟩

/-- No circular wait comes up in a run exactly when JoinGroup and the rebalances of its group take
their first lock in the order that keeps them apart. -/
theorem no_circular_wait_iff {bus : FaultTolerantMessageBus.State O} {events : List (Event O)}
    {final : State O} (run : exec step (start bus) events = some final) :
    Throughout step (fun s => ¬ Circular s) (start bus) events ↔
      Along step Ordered (start bus) events := by
  refine throughout_iff_along_of_run
    (fun s => Accounts Call.held s.locks s.calls ∧ ¬ Circular s) ?_ (fun _ held => held.2) ?_ ?_ run
  · refine ⟨RWMutex.accounts_nil, ?_⟩
    rintro ⟨first, member, -⟩
    cases member
  · intro s event next held ordered stepped
    exact ⟨accounts_step held.1 stepped, not_circular_step held.1 held.2 ordered stepped⟩
  · intro s event next held stepped clear
    exact ordered_of_step stepped clear

def groupAlone : FaultTolerantMessageBus.State Unit :=
  ⟨⟨∅, (∅ : GoMap String ConsumerGroup).insert "g" ⟨"g", ∅, ∅, 0⟩, ∅⟩, [], []⟩

def visiting (consumers : List String) : Choice := ⟨0, ⟨consumers, consumers, []⟩, []⟩

def joinThenLock : List (Event Unit) :=
  [.start (.join "g" "a" ["t"]), .advance 0 (visiting []), .advance 0 (visiting []),
    .advance 0 (visiting []), .advance 0 (visiting []), .advance 0 (visiting []),
    .advance 1 (visiting []), .advance 1 (visiting []), .advance 1 (visiting ["a"])]

def joinInTurn : List (Event Unit) :=
  joinThenLock ++ [.advance 1 (visiting []), .advance 1 (visiting []), .advance 1 (visiting ["a"]),
    .start (.join "g" "b" ["t"]), .advance 2 (visiting []), .advance 2 (visiting []),
    .advance 2 (visiting []), .advance 2 (visiting []), .advance 2 (visiting [])]

/-- A call that holds a lock for writing is the only one that holds it, and a lock that no call
holds is free. -/
theorem locks_exclusive {bus : FaultTolerantMessageBus.State O} {es t}
    (run : exec step (start bus) es = some t) (k) :
    RWMutex.holders Call.held t.calls k .write ≤ 1 ∧
      (0 < RWMutex.holders Call.held t.calls k .write →
        RWMutex.holders Call.held t.calls k .read = 0) ∧
      ((∀ mode, RWMutex.holders Call.held t.calls k mode = 0) → t.locks k = .free) := by
  obtain ⟨writers, readers, exclusive⟩ := run_accounts run k
  generalize t.locks k = lock at writers readers exclusive ⊢
  obtain ⟨_ | _, n⟩ := lock
  · refine ⟨by simp [writers], by simp [writers], fun idle => ?_⟩
    exact congrArg (RWMutex.mk false) (readers.symm.trans (idle .read))
  · refine ⟨by simp [writers], fun _ => readers.trans (exclusive rfl), fun idle => ?_⟩
    exact absurd (writers.symm.trans (idle .write)) (by simp)

theorem locks_exclusive_in_turn :
    ∃ t, exec step (start groupAlone) joinInTurn = some t ∧ ∀ k,
      RWMutex.holders Call.held t.calls k .write ≤ 1 := by
  have through : (exec step (start groupAlone) joinInTurn).isSome = true := by decide +kernel
  obtain ⟨t, run⟩ := Option.isSome_iff_exists.mp through
  exact ⟨t, run, fun k => (locks_exclusive run k).1⟩

def isOrdered (s : State O) : Event O → Bool
  | .start _ => true
  | .advance i _ =>
    match s.calls[i]? with
    | some (.join groupID _ _) => s.calls.all fun call => call.collects ≠ some groupID
    | some (.rebalanceLocking groupID) => s.calls.all fun call => call.joins ≠ some groupID
    | _ => true

theorem ordered_of_isOrdered {s : State O} {e : Event O} (ok : isOrdered s e = true) :
    Ordered s e := by
  cases e with
  | start call => trivial
  | advance i choice =>
    unfold Ordered
    dsimp only
    split
    next g c topics here =>
      simp only [isOrdered, here, all_eq_true, decide_eq_true_eq] at ok
      exact fun _ => ok
    next g here =>
      simp only [isOrdered, here, all_eq_true, decide_eq_true_eq] at ok
      exact fun _ _ _ => ok
    · trivial

theorem joins_in_turn_not_circular :
    (exec step (start groupAlone) joinInTurn).isSome = true ∧
      Throughout step (fun s => ¬ Circular s) (start groupAlone) joinInTurn := by
  have through : (exec step (start groupAlone) joinInTurn).isSome = true := by decide +kernel
  obtain ⟨final, run⟩ := Option.isSome_iff_exists.mp through
  refine ⟨through, (no_circular_wait_iff run).mpr ?_⟩
  exact along_of_check isOrdered (fun _ _ => ordered_of_isOrdered) (by decide +kernel)

/-- While the rebalance that the first JoinGroup started holds the group, a second JoinGroup locks
the bus: whatever happens from then on, the two wait for each other. -/
theorem join_meets_rebalance :
    ∃ s, exec step (start groupAlone)
        (joinThenLock ++ [.start (.join "g" "b" ["t"]), .advance 2 (visiting [])]) = some s ∧
      Circular s ∧ ∀ more t, exec step s more = some t → Circular t := by
  refine exists_exec (fun s => s.calls.map Call.joins = [none, none, some "g"] ∧
    s.calls.map Call.collects = [none, some "g", none]) (by decide +kernel) ?_
  intro s run ⟨joins, collects⟩
  have circular : Circular s := by
    refine circular_iff.mpr ⟨"g", ?_, ?_⟩
    · exact mem_map.mp (joins ▸ by decide)
    · exact mem_map.mp (collects ▸ by decide)
  refine ⟨circular, fun more t later => ?_⟩
  exact (exec_invariant (fun t => Accounts Call.held t.locks t.calls ∧ Circular t)
    ⟨run_accounts run, circular⟩
    (fun _ _ _ held stepped => ⟨accounts_step held.1 stepped, circular_step held.1 held.2 stepped⟩)
    later).2

end AsyncPractice.MessageBusLocks
