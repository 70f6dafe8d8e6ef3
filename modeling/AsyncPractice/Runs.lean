import Mathlib.Data.List.Induction

/- Executions of a guarded step function. An event that is not enabled in the
current state yields `none`, so a run is a list of events that were all enabled
when they happened. The module knows nothing about any particular system. -/
namespace AsyncPractice.Runs

open Option List

variable {σ ε : Type}

/-- The state after a list of events, or `none` once one of them is not enabled. -/
def exec (step : σ → ε → Option σ) (start : σ) (events : List ε) : Option σ :=
  events.foldlM step start

@[simp] theorem exec_nil (step : σ → ε → Option σ) (start) :
    exec step start [] = some start := rfl

theorem exec_append (step : σ → ε → Option σ) (start x y) :
    exec step start (x ++ y) = (exec step start x).bind (fun mid => exec step mid y) := by
  simp only [exec, foldlM_append]
  rfl

variable {step : σ → ε → Option σ} {ok : σ → ε → Prop} {good : σ → Prop} {start final : σ}
  {event : ε} {events x y : List ε}

theorem exec_cons_some {rest} :
    exec step start (event :: rest) = some final ↔
      ∃ next, step start event = some next ∧ exec step next rest = some final := by
  simp only [exec, foldlM_cons, bind_eq_bind, bind_eq_some_iff]

theorem exec_append_some :
    exec step start (x ++ y) = some final ↔ ∃ middle, exec step start x = some middle ∧
        exec step middle y = some final := by
  rw [exec_append, bind_eq_some_iff]

theorem exec_snoc_some :
    exec step start (events ++ [event]) = some final ↔
      ∃ last, exec step start events = some last ∧ step last event = some final := by
  rw [exec_append_some]
  constructor
  · rintro ⟨last, pre, run⟩
    obtain ⟨t, took, done⟩ := exec_cons_some.mp run
    exact ⟨last, pre, done ▸ took⟩
  · rintro ⟨last, pre, took⟩
    exact ⟨last, pre, exec_cons_some.mpr ⟨final, took, exec_nil step final⟩⟩

theorem guard_some {p} [Decidable p] {s} :
    (if p then some s else none) = some final ↔ p ∧ s = final := by
  rw [ite_none_right_eq_some, some.injEq]

/-- What holds of the entries of a log, and of the one that is added to it. -/
theorem forall_mem_snoc {α : Type} {p : α → Prop} {log : List α} {e : α} (old : ∀ a ∈ log, p a)
    (new : p e) : ∀ a ∈ log ++ [e], p a :=
  forall_mem_append.mpr ⟨old, forall_mem_singleton.mpr new⟩

/-- Where an entry stands in a log that one is added to. -/
theorem snoc_cases {α : Type} {log pre after : List α} {last e : α}
    (split : log ++ [last] = pre ++ e :: after) :
    (pre = log ∧ e = last ∧ after = []) ∨
      ∃ rest, log = pre ++ e :: rest ∧ after = rest ++ [last] := by
  rcases eq_nil_or_concat after with rfl | ⟨rest, final, rfl⟩
  · obtain ⟨rfl, eq⟩ := append_inj' split rfl
    cases eq
    exact .inl ⟨rfl, rfl, rfl⟩
  · rw [concat_eq_append, ← cons_append, ← append_assoc] at split
    obtain ⟨eq, own⟩ := append_inj' split rfl
    cases own
    exact .inr ⟨rest, eq, concat_eq_append⟩

theorem exec_resume {s} (run : exec step start (x ++ y) = some final)
    (came : exec step start x = some s) : exec step s y = some final := by
  obtain ⟨mid, pre, rest⟩ := exec_append_some.mp run
  rw [came, some.injEq] at pre
  exact pre ▸ rest

/-- Some events lead from one state to the other. -/
def Leads (step : σ → ε → Option σ) (start final : σ) : Prop :=
  ∃ events, exec step start events = some final

theorem Leads.refl (step : σ → ε → Option σ) (start) : Leads step start start := ⟨[], rfl⟩

theorem Leads.head {t} (took : step start event = some t) (rest : Leads step t final) :
    Leads step start final := by
  obtain ⟨events, run⟩ := rest
  exact ⟨event :: events, exec_cons_some.mpr ⟨t, took, run⟩⟩

theorem Leads.trans {mid} (x : Leads step start mid) (y : Leads step mid final) :
    Leads step start final := by
  obtain ⟨pre, run⟩ := x
  obtain ⟨after, rest⟩ := y
  exact ⟨pre ++ after, exec_append_some.mpr ⟨mid, run, rest⟩⟩

/-- The invariant rule, with the events so far available to the invariant. -/
theorem exec_history (inv : List ε → σ → Prop) (base : inv [] start)
    (preserved : ∀ events state event next, exec step start events = some state →
      inv events state → step state event = some next → inv (events ++ [event]) next)
    (run : exec step start events = some final) : inv events final := by
  induction events using reverseRecOn generalizing final with
  | nil =>
    rw [exec_nil, some.injEq] at run
    exact run ▸ base
  | append_singleton events event ih =>
    obtain ⟨last, pre, took⟩ := exec_snoc_some.mp run
    exact preserved events last event final pre (ih pre) took

/-- A property that holds at the start and survives every step holds after every run. -/
theorem exec_invariant (inv : σ → Prop) (base : inv start)
    (preserved : ∀ s event t, inv s → step s event = some t → inv t)
    (run : exec step start events = some final) : inv final :=
  exec_history (fun _ => inv) base
    (fun _ s event t _ held took => preserved s event t held took) run

/-- A run goes through when every event is enabled wherever the invariant holds. -/
theorem exec_total (inv : σ → Prop)
    (enabled : ∀ s, ∀ event ∈ events, inv s → ∃ t, step s event = some t ∧ inv t)
    (base : inv start) : ∃ final, exec step start events = some final ∧ inv final := by
  induction events generalizing start with
  | nil => exact ⟨start, exec_nil step start, base⟩
  | cons event rest ih =>
    obtain ⟨t, took, held⟩ := enabled start event mem_cons_self base
    obtain ⟨final, run, came⟩ := ih
      (fun s event mem => enabled s event (mem_cons_of_mem _ mem)) held
    exact ⟨final, exec_cons_some.mpr ⟨t, took, run⟩, came⟩

/-- A run on a fixed input, by what evaluation shows of the state it ends in. -/
theorem exists_exec {holds : σ → Prop} (seen : σ → Prop) [DecidablePred seen]
    (evaluated : (exec step start events).any (fun s => decide (seen s)) = true)
    (inv : ∀ s, exec step start events = some s → seen s → holds s) :
    ∃ s, exec step start events = some s ∧ holds s := by
  obtain ⟨s, run, passed⟩ := any_eq_true _ _ |>.mp evaluated
  exact ⟨s, run, inv s run (of_decide_eq_true passed)⟩

theorem exists_exec_of_decide {holds : σ → Prop} [DecidablePred holds]
    (evaluated : (exec step start events).any (fun s => decide (holds s)) = true) :
    ∃ s, exec step start events = some s ∧ holds s :=
  exists_exec holds evaluated fun _ _ passed => passed

/-- Every event of the run meets `ok` in the state it happens in. -/
def Along (step : σ → ε → Option σ) (ok : σ → ε → Prop) (start : σ) (events : List ε) : Prop :=
  ∀ before event after, events = before ++ event :: after →
    ∀ state, exec step start before = some state → ok state event

theorem Along.initial (inv : Along step ok start (x ++ y)) : Along step ok start x := by
  intro pre event after split s run
  exact inv pre event (after ++ y) (by simp [split]) s run

theorem Along.last {s} (inv : Along step ok start (events ++ [event]))
    (run : exec step start events = some s) : ok s event :=
  inv events event [] rfl s run

theorem Along.rest {mid} (inv : Along step ok start (x ++ y))
    (run : exec step start x = some mid) : Along step ok mid y := by
  intro pre event after split s later
  refine inv (x ++ pre) event after (by rw [split, append_assoc]) s ?_
  exact exec_append_some.mpr ⟨mid, run, later⟩

theorem Along.nil : Along step ok start [] := by
  intro pre event after split
  simp at split

theorem Along.snoc (inv : Along step ok start events)
    (last : ∀ s, exec step start events = some s → ok s event) :
    Along step ok start (events ++ [event]) := by
  intro pre event' after split s run
  obtain ⟨rfl, rfl, -⟩ | ⟨rest, shorter, -⟩ := snoc_cases split
  · exact last s run
  · exact inv pre event' rest shorter s run

theorem Along.and {x y} (left : Along step x start events) (right : Along step y start events) :
    Along step (fun s event => x s event ∧ y s event) start events := by
  intro pre event after split s run
  exact ⟨left pre event after split s run, right pre event after split s run⟩

theorem along_of_forall {legal : ε → Prop} (lawful : ∀ event ∈ events, legal event) :
    Along step (fun _ event => legal event) start events := by
  intro pre event after split s run
  apply lawful
  simp [split]

theorem along_cons {rest} (x : ok start event)
    (others : ∀ t, step start event = some t → Along step ok t rest) :
    Along step ok start (event :: rest) := by
  intro pre event' after split s run
  cases pre with
  | nil =>
    obtain ⟨rfl, rfl⟩ := cons.inj split
    rw [exec_nil, some.injEq] at run
    exact run ▸ x
  | cons head pre =>
    obtain ⟨rfl, tail⟩ := cons.inj split
    obtain ⟨t, took, run⟩ := exec_cons_some.mp run
    exact others t took pre event' after tail s run

/-- Evaluates a test at every step of a run. -/
def check (step : σ → ε → Option σ) (test : σ → ε → Bool) (start : σ) : List ε → Bool
  | [] => true
  | event :: rest =>
    test start event && match step start event with
      | none => true
      | some next => check step test next rest

theorem along_of_check (test : σ → ε → Bool)
    (inv : ∀ state event, test state event = true → ok state event)
    (passed : check step test start events = true) : Along step ok start events := by
  induction events generalizing start with
  | nil => exact Along.nil
  | cons event rest ih =>
    simp only [check, Bool.and_eq_true] at passed
    refine along_cons (inv start event passed.1) fun t took => ih ?_
    simpa only [took] using passed.2

theorem along_of_decide [∀ s event, Decidable (ok s event)]
    (passed : check step (fun s event => decide (ok s event)) start events = true) :
    Along step ok start events :=
  along_of_check _ (fun _ _ => of_decide_eq_true) passed

/-- A run whose steps are only taken under a condition. -/
theorem exec_of_guard [∀ s event, Decidable (ok s event)]
    (run : exec (fun s event => if ok s event then step s event else none) start
      events = some final) : exec step start events = some final ∧ Along step ok start events := by
  induction events using reverseRecOn generalizing final with
  | nil => exact ⟨run, Along.nil⟩
  | append_singleton events event ih =>
    obtain ⟨last, pre, took⟩ := exec_snoc_some.mp run
    obtain ⟨met, took⟩ := ite_none_right_eq_some.mp took
    obtain ⟨came, inv⟩ := ih pre
    refine ⟨exec_snoc_some.mpr ⟨last, came, took⟩, inv.snoc fun s other => ?_⟩
    rw [came] at other
    exact some.inj other ▸ met

/-- The invariant rule for runs whose steps all meet a side condition. -/
theorem exec_guarded (inv : σ → Prop) (base : inv start)
    (preserved : ∀ state event next, inv state → ok state event →
      step state event = some next → inv next) (run : exec step start events = some final)
    (guarded : Along step ok start events) : inv final := by
  induction events using reverseRecOn generalizing final with
  | nil =>
    rw [exec_nil, some.injEq] at run
    exact run ▸ base
  | append_singleton events event ih =>
    obtain ⟨last, pre, took⟩ := exec_snoc_some.mp run
    exact preserved last event final (ih pre guarded.initial) (guarded.last pre) took

/-- A quantity that grows by at most one a step stays below what it has room for. -/
theorem along_of_room (measure : σ → Int)
    (slow : ∀ s event t, step s event = some t → measure t ≤ measure s + 1) {bound}
    (room : measure start + events.length ≤ bound) :
    Along step (fun s _ => measure s < bound) start events := by
  intro pre event after split s run
  have cnt : measure s ≤ measure start + pre.length := by
    refine exec_history (fun events s => measure s ≤ measure start + events.length) (by simp) ?_ run
    intro events s event t _ held took
    have more := slow s event t took
    rw [length_append, length_singleton]
    omega
  rw [split, length_append, length_cons] at room
  omega

/-- Events that use up a quantity, which no event adds to, are no more than there is of it. -/
theorem exec_bounded (inv : σ → Prop) (left : σ → Nat) (uses : ε → Bool) (base : inv start)
    (spends : ∀ state event next, inv state → ok state event → step state event = some next →
      inv next ∧ (left next < left state ∨ uses event = false ∧ left next ≤ left state))
    (run : exec step start events = some final) (guarded : Along step ok start events) :
    inv final ∧ left final + events.countP uses ≤ left start := by
  induction events using reverseRecOn generalizing final with
  | nil =>
    rw [exec_nil, some.injEq] at run
    subst run
    exact ⟨base, Nat.le_refl _⟩
  | append_singleton events event ih =>
    obtain ⟨last, pre, took⟩ := exec_snoc_some.mp run
    obtain ⟨held, earlier⟩ := ih pre guarded.initial
    obtain ⟨holds, spent⟩ := spends last event final held (guarded.last pre) took
    refine ⟨holds, ?_⟩
    rw [countP_append, countP_singleton]
    rcases spent with spent | ⟨unused, kept⟩
    · split <;> omega
    · rw [unused]
      simp only [Bool.false_eq_true, if_false]
      omega

/-- Every state the run passes through is good, the first and the last included. -/
def Throughout (step : σ → ε → Option σ) (good : σ → Prop) (start : σ) (events : List ε) : Prop :=
  ∀ before after, events = before ++ after →
    ∀ state, exec step start before = some state → good state

theorem Throughout.last (all : Throughout step good start events)
    (run : exec step start events = some final) : good final :=
  all events [] (append_nil events).symm final run

theorem Throughout.nil (x : good start) : Throughout step good start [] := by
  intro pre after split s run
  obtain rfl := (append_eq_nil_iff.mp split.symm).1
  rw [exec_nil, some.injEq] at run
  exact run ▸ x

theorem Throughout.snoc {t} (earlier : Throughout step good start events)
    (run : exec step start (events ++ [event]) = some t) (last : good t) :
    Throughout step good start (events ++ [event]) := by
  intro pre after split s came
  rcases eq_nil_or_concat after with rfl | ⟨after, final, rfl⟩
  · rw [append_nil] at split
    rw [← split, run, some.injEq] at came
    exact came ▸ last
  · rw [concat_eq_append, ← append_assoc] at split
    exact earlier pre after (append_inj' split rfl).1 s came

/-- What holds at the end and was true before each step it is true after holds all along. -/
theorem along_of_final (back : ∀ s event t, step s event = some t → good t → good s)
    (run : exec step start events = some final) (last : good final) :
    Along step (fun s event => ∀ t, step s event = some t → good t) start
      events := by
  have earlier : ∀ {events : List ε} {s : σ}, exec step s events = some final → good s := by
    intro events
    induction events with
    | nil =>
      intro s run
      rw [exec_nil, some.injEq] at run
      exact run ▸ last
    | cons event events ih =>
      intro s run
      obtain ⟨t, took, rest⟩ := exec_cons_some.mp run
      exact back s event t took (ih rest)
  intro pre event after split s came t took
  obtain ⟨next', stepped', rest⟩ := exec_cons_some.mp (exec_resume (split ▸ run) came)
  rw [took, some.injEq] at stepped'
  exact earlier (stepped' ▸ rest)

variable (inv : σ → Prop) (base : inv start) (sound : ∀ state, inv state → good state)
include inv base sound

/-- A side condition that keeps the invariant, and without which the next state is bad, is
exactly what a run of good states needs. -/
theorem throughout_iff_along (legal : ε → Prop)
    (preserved : ∀ s event t, inv s → legal event → ok s event → step s event = some t → inv t)
    (needed : ∀ s event, inv s → legal event → (∀ t, step s event = some t → good t) → ok s event)
    (lawful : ∀ event ∈ events, legal event) :
    Throughout step good start events ↔ Along step ok start events := by
  have came : ∀ {events : List ε} {s : σ}, (∀ event ∈ events, legal event) →
      Along step ok start events → exec step start events = some s → inv s := by
    intro events s lawful guarded run
    exact exec_guarded inv base (fun s event t held met => preserved s event t held met.2 met.1) run
      (guarded.and (along_of_forall lawful))
  constructor
  · intro good
    induction events using reverseRecOn with
    | nil => exact Along.nil
    | append_singleton events event ih =>
      have front : ∀ other ∈ events, legal other :=
        fun other mem => lawful other (mem_append_left _ mem)
      have earlier := ih front fun pre after split =>
        good pre (after ++ [event]) (by rw [split, append_assoc])
      refine earlier.snoc fun s run => ?_
      refine needed s event (came front earlier run) (lawful event (by simp)) ?_
      intro t took
      exact good.last (exec_snoc_some.mpr ⟨s, run, took⟩)
  · intro guarded pre after split s run
    subst split
    exact sound s (came (fun event mem => lawful event (mem_append_left _ mem)) guarded.initial run)

/-- For a run that goes through, only enabled events need the side condition. -/
theorem throughout_iff_along_of_lawful_run (legal : ε → Prop)
    (preserved : ∀ s event t, inv s → legal event → ok s event → step s event = some t → inv t)
    (needed : ∀ s event t, inv s → legal event → step s event = some t → good t → ok s event)
    (lawful : ∀ event ∈ events, legal event) (run : exec step start events = some final) :
    Throughout step good start events ↔ Along step ok start events := by
  have enabled : Along step ok start events ↔
      Along step (fun s event => (step s event).isSome = true → ok s event) start
        events := by
    constructor
    · intro guarded pre event after split s came _
      exact guarded pre event after split s came
    · intro guarded pre event after split s came
      obtain ⟨t, took, -⟩ := exec_cons_some.mp (exec_resume (split ▸ run) came)
      exact guarded pre event after split s came (isSome_of_eq_some took)
  rw [enabled]
  refine throughout_iff_along inv base sound legal ?_ ?_ lawful
  · intro s event t held fair met took
    exact preserved s event t held fair (met (isSome_of_eq_some took)) took
  · intro s event held fair fine took
    obtain ⟨t, took⟩ := isSome_iff_exists.mp took
    exact needed s event t held fair took (fine t took)

theorem throughout_iff_along_of_run
    (preserved : ∀ s event t, inv s → ok s event → step s event = some t → inv t)
    (needed : ∀ s event t, inv s → step s event = some t → good t → ok s event)
    (run : exec step start events = some final) :
    Throughout step good start events ↔ Along step ok start events :=
  throughout_iff_along_of_lawful_run inv base sound (fun _ => True)
    (fun s event t held _ => preserved s event t held)
    (fun s event t held _ => needed s event t held) (fun _ _ => trivial) run

end AsyncPractice.Runs
