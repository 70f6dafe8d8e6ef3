import AsyncPractice.Singleflight

/- When loadFunc is called, by the clock. The actions of a call happen at readings of one clock that
does not go back, and the call of loadFunc is a moment of its own between the section that decides
on it and the one that stores its value. -/
namespace AsyncPractice.Singleflight

open Option List Function Runs

variable {ι V : Type}

/-- `stores` lists the key and the expiry of every stored entry and `seen i` how many there were
when call `i` looked into the cache; both only observe. -/
structure Timed (ι V : Type) where
  state : State ι V
  clock : Int
  called : ι → Bool
  stores : List (String × Int)
  seen : ι → Nat

def Action.caller : Action ι V → ι
  | .checkCache i _ _ => i
  | .locateKey i => i
  | .enterKey i => i
  | .failLoad i => i
  | .storeValue i _ _ => i
  | .notifyWaiter i => i
  | .finishLoad i => i
  | .awaitValue i => i
  | .cancelWait i => i

inductive Event (ι V : Type)
  | act (now : Int) (action : Action ι V)
  | callLoad (now : Int) (i : ι)

def timedInit (now : Int) : Timed ι V := ⟨init, now, fun _ => false, [], fun _ => 0⟩

/-- The action reads the clock at the given time, and what comes after loadFunc finds it called. -/
def Action.Fits (now : Int) (called : ι → Bool) : Action ι V → Prop
  | .checkCache _ _ reading => reading = now
  | .storeValue i _ reading => reading = now ∧ called i = true
  | .failLoad i => called i = true
  | _ => True

instance (now : Int) (called : ι → Bool) (action : Action ι V) :
    Decidable (action.Fits now called) :=
  match action with
  | .checkCache _ _ _ => inferInstanceAs (Decidable (_ = _))
  | .storeValue _ _ _ => inferInstanceAs (Decidable (_ ∧ _))
  | .failLoad _ => inferInstanceAs (Decidable (_ = _))
  | .locateKey _ | .enterKey _ | .notifyWaiter _ | .finishLoad _ | .awaitValue _ | .cancelWait _ =>
    isTrue trivial

/-- The key that a call is after since it missed the cache, up to the end of its load. -/
def Phase.pursues : Phase ι V → Option String
  | .missed key => some key
  | .located key _ => some key
  | .loading key _ _ => some key
  | _ => none

def Phase.isLoading : Phase ι V → Bool
  | .loading _ _ _ => true
  | _ => false

/-- A call of loadFunc finds every entry that was stored for its key expired. -/
def LoadsOnce (t : Timed ι V) : Event ι V → Prop
  | .act _ _ => True
  | .callLoad now i => ∀ key expiry, (t.state.phase i).pursues = some key →
      (key, expiry) ∈ t.stores → expiry ≤ now

/-- A call of loadFunc finds every entry expired that was stored for its key since the call looked
into the cache. -/
def NotOvertaken (t : Timed ι V) : Event ι V → Prop
  | .act _ _ => True
  | .callLoad now i => ∀ key expiry, (t.state.phase i).pursues = some key →
      (key, expiry) ∈ t.stores.drop (t.seen i) → expiry ≤ now

variable [DecidableEq ι]

def Timed.observe (t : Timed ι V) (now : Int) : Action ι V → Timed ι V
  | .checkCache i _ _ => { t with seen := update t.seen i t.stores.length }
  | .storeValue i _ _ =>
    { t with stores := t.stores ++ ((t.state.phase i).pursues.map (·, now + defaultTTL)).toList }
  | _ => t

def timedStep (t : Timed ι V) : Event ι V → Option (Timed ι V)
  | .act now action =>
    if t.clock ≤ now ∧ action.Fits now t.called then
      (step t.state action).map fun state => { t.observe now action with state, clock := now }
    else none
  | .callLoad now i =>
    if t.clock ≤ now ∧ (t.state.phase i).isLoading = true ∧ t.called i = false then
      some { t with clock := now, called := update t.called i true }
    else none

inductive Pursuit (s : State ι V) : Action ι V → State ι V → Prop
  | miss {next : State ι V} (i : ι) (key : String) (now : Int)
      (phase : next.phase = update s.phase i (.missed key)) (data : next.data = s.data)
      (expired : ∀ entry, s.data.lookup key = some entry → entry.expiry ≤ now) :
      Pursuit s (.checkCache i key now) next
  | store {next : State ι V} (i : ι) (key : String) (value : V) (now : Int) (phase : Phase ι V)
      (pursued : (s.phase i).pursues = some key) (done : phase.pursues = none)
      (moved : next.phase = update s.phase i phase)
      (data : next.data = s.data.insert key ⟨value, now + defaultTTL⟩) :
      Pursuit s (.storeValue i value now) next
  | other {action : Action ι V} {next : State ι V} (phase : Phase ι V)
      (stores : ∀ i value now, action ≠ .storeValue i value now)
      (moved : next.phase = update s.phase action.caller phase)
      (pursued : phase.pursues = none ∨
        (phase.pursues = (s.phase action.caller).pursues ∧
          ∀ i key now, action ≠ .checkCache i key now))
      (data : next.data = s.data) : Pursuit s action next

variable {s t : State ι V}

theorem pursuit_of_step {action} (took : step s action = some t) : Pursuit s action t := by
  cases action with
  | checkCache i k now =>
    simp only [step, checkCache] at took
    split at took
    · split at took
      next e hit =>
        split at took
        · cases took
          exact .other _ (by simp) rfl (.inl rfl) rfl
        next expired =>
          cases took
          refine .miss i k now rfl rfl fun x found => ?_
          rw [hit, some.injEq] at found
          exact found ▸ Int.not_lt.mp expired
      next absent =>
        cases took
        refine .miss i k now rfl rfl fun x found => ?_
        rw [absent] at found
        cases found
    · cases took
  | locateKey i =>
    simp only [step, locateKey] at took
    split at took
    next k missed =>
      have eq : (s.phase i).pursues = some k := by rw [missed]; rfl
      split at took <;> cases took <;> exact .other _ (by simp) rfl (.inr ⟨eq.symm, by simp⟩) rfl
    · cases took
  | enterKey i =>
    simp only [step, enterKey] at took
    split at took
    next k ptr located =>
      obtain ⟨lk, -, took⟩ := bind_eq_some_iff.mp took
      split at took
      · cases took
        exact .other _ (by simp) rfl (.inl rfl) rfl
      · have eq : (s.phase i).pursues = some k := by rw [located]; rfl
        cases took
        exact .other _ (by simp) rfl (.inr ⟨eq.symm, by simp⟩) rfl
    · cases took
  | failLoad i =>
    simp only [step, failLoad] at took
    split at took
    · obtain ⟨lk, -, took⟩ := bind_eq_some_iff.mp took
      cases took
      exact .other _ (by simp) rfl (.inl rfl) rfl
    · cases took
  | storeValue i v now =>
    simp only [step, storeValue] at took
    split at took <;> cases took
    rename_i k ptr waiters loading
    exact .store i k v now _ (by rw [loading]; rfl) rfl rfl rfl
  | notifyWaiter i =>
    simp only [step, notifyWaiter] at took
    split at took
    · split at took <;> cases took
      exact .other _ (by simp) rfl (.inl rfl) rfl
    · cases took
  | finishLoad i =>
    simp only [step, finishLoad] at took
    split at took
    · obtain ⟨lk, -, took⟩ := bind_eq_some_iff.mp took
      cases took
      exact .other _ (by simp) rfl (.inl rfl) rfl
    · cases took
  | awaitValue i =>
    simp only [step, awaitValue] at took
    split at took
    · cases took
      exact .other _ (by simp) rfl (.inl rfl) rfl
    · cases took
      exact .other _ (by simp) rfl (.inl rfl) rfl
    · cases took
  | cancelWait i =>
    simp only [step, cancelWait] at took
    split at took <;> cases took
    exact .other _ (by simp) rfl (.inl rfl) rfl

variable {t : Timed ι V} {now : Int} {action : Action ι V}

theorem observe_stores (none_stored : ∀ i v rd, action ≠ .storeValue i v rd) :
    (t.observe now action).stores = t.stores := by
  cases action with
  | storeValue i v rd => exact absurd rfl (none_stored i v rd)
  | _ => rfl

theorem observe_seen (none_looked : ∀ i k rd, action ≠ .checkCache i k rd) :
    (t.observe now action).seen = t.seen := by
  cases action with
  | checkCache i k rd => exact absurd rfl (none_looked i k rd)
  | _ => rfl

theorem observe_seen_ne {j} (ne : j ≠ action.caller) :
    (t.observe now action).seen j = t.seen j := by
  cases action with
  | checkCache i k rd => exact update_of_ne ne _ _
  | _ => rfl

theorem observe_seen_le (inv : ∀ i, t.seen i ≤ t.stores.length) (i) :
    (t.observe now action).seen i ≤ (t.observe now action).stores.length := by
  cases action with
  | checkCache j k rd =>
    by_cases same : i = j
    · subst same
      exact (update_self i _ t.seen).le
    · exact (update_of_ne same _ t.seen).trans_le (inv i)
  | storeValue j v rd =>
    refine (inv i).trans ?_
    show t.stores.length ≤ (t.stores ++ _).length
    rw [length_append]
    exact Nat.le_add_right _ _
  | _ => exact inv i

/-- Every stored entry is in the cache, or a later one of its key is, and those that a call could
see when it missed have expired. -/
structure Dated (t : Timed ι V) : Prop where
  bounded : ∀ i, t.seen i ≤ t.stores.length
  recent : ∀ key expiry, (key, expiry) ∈ t.stores → expiry ≤ t.clock + defaultTTL
  kept : ∀ key expiry, (key, expiry) ∈ t.stores →
    ∃ entry, t.state.data.lookup key = some entry ∧ expiry ≤ entry.expiry
  looked : ∀ i key, (t.state.phase i).pursues = some key →
    ∀ expiry, (key, expiry) ∈ t.stores.take (t.seen i) → expiry ≤ t.clock

omit [DecidableEq ι] in
theorem dated_timedInit (now) : Dated (timedInit now : Timed ι V) where
  bounded := fun _ => Nat.le_refl _
  recent := by simp [timedInit]
  kept := by simp [timedInit]
  looked := by simp [timedInit]

section

variable {state : State ι V} {k : String} {expiry : Int}

omit [DecidableEq ι] in
theorem Dated.recent_later (inv : Dated t) (later : t.clock ≤ now)
    (stored : (k, expiry) ∈ t.stores) : expiry ≤ now + defaultTTL := by
  have old := inv.recent k expiry stored
  omega

variable (inv : Dated t)
include inv

omit [DecidableEq ι] in
theorem Dated.looked_later (later : t.clock ≤ now) {i}
    (pursued : (t.state.phase i).pursues = some k)
    (stored : (k, expiry) ∈ t.stores.take (t.seen i)) : expiry ≤ now :=
  Int.le_trans (inv.looked i k pursued expiry stored) later

theorem Dated.miss (later : t.clock ≤ now) (i k)
    (phase : state.phase = update t.state.phase i (.missed k)) (data : state.data = t.state.data)
    (expired : ∀ e, t.state.data.lookup k = some e → e.expiry ≤ now) :
    Dated { t with state, clock := now, seen := update t.seen i t.stores.length } where
  bounded := by
    intro j
    by_cases same : j = i
    · subst same
      exact (update_self j _ t.seen).le
    · exact (update_of_ne same _ t.seen).trans_le (inv.bounded j)
  recent := fun _ _ stored => inv.recent_later later stored
  kept := by
    intro k expiry stored
    rw [data]
    exact inv.kept k expiry stored
  looked := by
    intro j x pursued expiry stored
    dsimp only at pursued stored ⊢
    rw [phase] at pursued
    by_cases same : j = i
    · subst same
      rw [update_self, Phase.pursues, some.injEq] at pursued
      subst pursued
      obtain ⟨e, hit, covered⟩ := inv.kept k expiry (mem_of_mem_take stored)
      exact Int.le_trans covered (expired e hit)
    · rw [update_of_ne same] at pursued stored
      exact inv.looked_later later pursued stored

/-- The entry that is stored last expires last, so that it covers those before it. -/
theorem Dated.store (later : t.clock ≤ now) (i k v phase) (done : phase.pursues = none)
    (moved : state.phase = update t.state.phase i phase)
    (data : state.data = t.state.data.insert k ⟨v, now + defaultTTL⟩) :
    Dated { t with state, clock := now, stores := t.stores ++ [(k, now + defaultTTL)] } where
  bounded := by
    intro j
    refine (inv.bounded j).trans ?_
    rw [length_append]
    exact Nat.le_add_right _ _
  recent := by
    intro x expiry stored
    rcases mem_append.mp stored with earlier | new
    · exact inv.recent_later later earlier
    · obtain ⟨-, rfl⟩ := Prod.mk.inj (mem_singleton.mp new)
      exact Int.le_refl _
  kept := by
    intro x expiry stored
    rw [data, GoMap.lookup_insert_ite]
    split
    · refine ⟨_, rfl, ?_⟩
      rcases mem_append.mp stored with earlier | new
      · exact inv.recent_later later earlier
      · obtain ⟨-, rfl⟩ := Prod.mk.inj (mem_singleton.mp new)
        exact Int.le_refl _
    next ne =>
      rcases mem_append.mp stored with earlier | new
      · exact inv.kept x expiry earlier
      · obtain ⟨rfl, -⟩ := Prod.mk.inj (mem_singleton.mp new)
        exact absurd rfl ne
  looked := by
    intro j x pursued expiry stored
    rw [moved] at pursued
    rw [take_append_of_le_length (inv.bounded j)] at stored
    by_cases same : j = i
    · subst same
      rw [update_self, done] at pursued
      cases pursued
    · rw [update_of_ne same] at pursued
      exact inv.looked_later later pursued stored

theorem Dated.other (later : t.clock ≤ now) (phase)
    (stores : ∀ i value reading, action ≠ .storeValue i value reading)
    (moved : state.phase = update t.state.phase action.caller phase)
    (pursued : phase.pursues = none ∨ (phase.pursues = (t.state.phase action.caller).pursues ∧
      ∀ i k reading, action ≠ .checkCache i k reading)) (data : state.data = t.state.data) :
    Dated { t.observe now action with state, clock := now } where
  bounded := observe_seen_le inv.bounded
  recent := by
    rw [observe_stores stores]
    exact fun _ _ stored => inv.recent_later later stored
  kept := by
    rw [observe_stores stores, data]
    exact inv.kept
  looked := by
    intro j k sought expiry stored
    rw [moved] at sought
    rw [observe_stores stores] at stored
    by_cases same : j = action.caller
    · subst same
      rw [update_self] at sought
      rcases pursued with done | ⟨still, looks⟩
      · rw [done] at sought
        cases sought
      · rw [observe_seen looks] at stored
        exact inv.looked_later later (still ▸ sought) stored
    · rw [update_of_ne same] at sought
      rw [observe_seen_ne same] at stored
      exact inv.looked_later later sought stored

theorem Dated.act (later : t.clock ≤ now) (fits : action.Fits now t.called)
    (took : step t.state action = some state) :
    Dated { t.observe now action with state, clock := now } := by
  cases pursuit_of_step took with
  | miss i k rd phase data expired =>
    obtain rfl : rd = now := fits
    exact inv.miss later i k phase data expired
  | store i k v rd phase pursued done moved data =>
    obtain rfl : rd = now := fits.1
    have stored := inv.store later i k v phase done moved data
    simpa only [Timed.observe, pursued, Option.map_some, toList_some] using stored
  | other phase stores moved pursued data =>
    exact inv.other later phase stores moved pursued data

theorem Dated.timedStep {e next} (took : timedStep t e = some next) : Dated next := by
  cases e with
  | act now action =>
    obtain ⟨⟨later, fits⟩, took⟩ := ite_none_right_eq_some.mp took
    obtain ⟨state, moved, rfl⟩ := map_eq_some_iff.mp took
    exact inv.act later fits moved
  | callLoad now i =>
    obtain ⟨⟨later, -⟩, rfl⟩ := guard_some.mp took
    exact ⟨inv.bounded, fun _ _ stored => inv.recent_later later stored, inv.kept,
      fun _ _ pursued _ stored => inv.looked_later later pursued stored⟩

end

theorem run_dated {started : Int} {es : List (Event ι V)} {t : Timed ι V}
    (run : exec timedStep (timedInit started) es = some t) : Dated t :=
  exec_invariant Dated (dated_timedInit started) (fun _ _ _ inv => inv.timedStep) run

/-- A load is never repeated while its entry lasts exactly when no call of loadFunc comes from a
call of cacheGet that was overtaken, between its look into the cache and its own load, by another
load of the key whose entry still lasts. -/
theorem loads_once_iff {started : Int} {events : List (Event ι V)} {final : Timed ι V}
    (run : exec timedStep (timedInit started) events = some final) :
    Along timedStep LoadsOnce (timedInit started) events ↔
      Along timedStep NotOvertaken (timedInit started) events := by
  constructor
  · intro once before event after split state reached
    have holds := once before event after split state reached
    cases event with
    | act now action => trivial
    | callLoad now i =>
      intro key expiry pursued stored
      exact holds key expiry pursued (mem_of_mem_drop stored)
  · intro ahead before event after split state reached
    have holds := ahead before event after split state reached
    have dated := run_dated reached
    cases event with
    | act now action => trivial
    | callLoad now i =>
      have later : state.clock ≤ now := by
        obtain ⟨next, stepped, -⟩ := exec_cons_some.mp (exec_resume (split ▸ run) reached)
        exact (ite_none_right_eq_some.mp stepped).1.1
      intro key expiry pursued stored
      rw [← take_append_drop (state.seen i) state.stores] at stored
      rcases mem_append.mp stored with looked | since
      · exact dated.looked_later later pursued looked
      · exact holds key expiry pursued since

def joined : List (Event Nat Nat) :=
  [.act 0 (.checkCache 0 "k" 0), .act 0 (.checkCache 1 "k" 0), .act 0 (.locateKey 0),
    .act 0 (.locateKey 1), .act 0 (.enterKey 0), .act 0 (.enterKey 1), .callLoad 1 0,
    .act 2 (.storeValue 0 7 2), .act 2 (.finishLoad 0)]

instance (t : Timed Nat Nat) (event : Event Nat Nat) : Decidable (NotOvertaken t event) :=
  match event with
  | .act _ _ => isTrue trivial
  | .callLoad now i =>
    decidable_of_iff (∀ store ∈ t.stores.drop (t.seen i),
        (t.state.phase i).pursues = some store.1 → store.2 ≤ now)
      ⟨fun all key expiry pursued stored => all (key, expiry) stored pursued,
        fun all store stored pursued => all store.1 store.2 pursued stored⟩

theorem joined_loads_once :
    (exec timedStep (timedInit 0) joined).isSome = true ∧
      Along timedStep LoadsOnce (timedInit 0) joined := by
  have through : (exec timedStep (timedInit 0) joined).isSome = true := by decide +kernel
  obtain ⟨final, run⟩ := isSome_iff_exists.mp through
  refine ⟨through, (loads_once_iff run).mpr ?_⟩
  exact along_of_decide (by decide +kernel)

/-- Call 1 misses before call 0 stores the value it loads, and goes on only once call 0 has
removed the key from the loading ones. -/
def overtaken : List (Event Nat Nat) :=
  [.act 0 (.checkCache 0 "k" 0), .act 0 (.checkCache 1 "k" 0), .act 0 (.locateKey 0),
    .act 0 (.enterKey 0), .callLoad 1 0, .act 2 (.storeValue 0 7 2), .act 2 (.finishLoad 0),
    .act 3 (.locateKey 1), .act 3 (.enterKey 1)]

/-- It loads the value again one nanosecond after that was stored for five seconds. -/
theorem overtaken_call_loads_again :
    ∃ t, exec timedStep (timedInit 0) overtaken = some t ∧
      (timedStep t (.callLoad 3 1)).isSome = true ∧ ¬ LoadsOnce t (.callLoad 3 1) := by
  refine exists_exec (fun t => (timedStep t (.callLoad 3 1)).isSome = true ∧
    (t.state.phase 1).pursues = some "k" ∧ t.stores = [("k", 2 + defaultTTL)])
    (by decide +kernel) ?_
  intro t _ ⟨enabled, pursued, stored⟩
  refine ⟨enabled, fun once => ?_⟩
  have expired := once "k" (2 + defaultTTL) pursued (stored ▸ mem_singleton_self _)
  exact absurd expired (by decide)

end AsyncPractice.Singleflight
