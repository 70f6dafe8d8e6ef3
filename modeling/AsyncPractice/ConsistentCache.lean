import AsyncPractice.LastWrite
import AsyncPractice.Runs

/- cacheSet and cacheGet of solution3_ConsistencyGuarantee in challenge15_solution.go, for calls
that run side by side. Every lock section is one step; cacheSet writes the store and the cache in
one section, cacheGet reads the store in one and fills the cache in a later one. Instants are
nanoseconds. -/
namespace AsyncPractice.WriteThrough

open Option LastWrite Runs

structure CacheEntry (V : Type) where
  value : V
  version : Int
  expiry : Int
  deriving DecidableEq

/-- A subscriber is the buffer of its channel. -/
structure ConsistentCache (V : Type) where
  cache : GoMap String (CacheEntry V)
  dataStore : GoMap String V
  subscribers : List (List String)

structure Reading where
  version : Int
  now : Int

def newEntry {V : Type} (value : V) (reading : Reading) : CacheEntry V :=
  ⟨value, reading.version, reading.now + 5 * 10 ^ 9⟩

inductive Outcome (V : Type)
  | got (value : Option V)
  | stored

/-- A call by the section that it enters next. -/
inductive Call (V : Type)
  | readCache (key : String)
  | readStore (key : String)
  | fillCache (key : String) (value : V)
  | write (key : String) (value : V)
  | copySubscribers (key : String)
  | notify (key : String) (subscribers : List Nat)
  | returned (outcome : Outcome V)

def Call.isReturned {V : Type} : Call V → Bool
  | .returned _ => true
  | _ => false

/-- `writes` records for every write to the cache its key and whether it wrote what the store held
at that moment; it only observes. -/
structure State (V : Type) where
  cache : ConsistentCache V
  calls : List (Call V)
  writes : List (String × Bool)

def start {V : Type} : State V := ⟨⟨∅, ∅, []⟩, [], []⟩

inductive Event (V : Type)
  | cacheSubscribe
  | receive (subscriber : Nat)
  | cacheGet (key : String)
  | cacheSet (key : String) (value : V)
  | advance (i : Nat) (reading : Reading)

variable {V : Type}

def State.goto (s : State V) (i : Nat) (call : Call V) : State V :=
  { s with calls := s.calls.set i call }

/-- A send that does not wait for room in the buffer. -/
def notifySubscriber (subscribers : List (List String)) (subscriber : Nat) (key : String) :
    List (List String) :=
  subscribers.modify subscriber fun buffer =>
    if buffer.length < 100 then buffer ++ [key] else buffer

section

variable [DecidableEq V]

def advance (s : State V) (i : Nat) (reading : Reading) : Call V → Option (State V)
  | .readCache key =>
    match s.cache.cache.lookup key with
    | some entry =>
      if reading.now > entry.expiry then some (s.goto i (.readStore key))
      else some (s.goto i (.returned (.got (some entry.value))))
    | none => some (s.goto i (.readStore key))
  | .readStore key =>
    match s.cache.dataStore.lookup key with
    | some value => some (s.goto i (.fillCache key value))
    | none => some (s.goto i (.returned (.got none)))
  | .fillCache key value =>
    some { s.goto i (.returned (.got (some value))) with
      cache := { s.cache with cache := s.cache.cache.insert key (newEntry value reading) }
      writes := s.writes ++ [(key, decide (s.cache.dataStore.lookup key = some value))] }
  | .write key value =>
    some { s.goto i (.copySubscribers key) with
      cache := { s.cache with
        dataStore := s.cache.dataStore.insert key value
        cache := s.cache.cache.insert key (newEntry value reading) }
      writes := s.writes ++ [(key, true)] }
  | .copySubscribers key =>
    some (s.goto i (.notify key (List.range s.cache.subscribers.length)))
  | .notify key (subscriber :: subscribers) =>
    some { s.goto i (.notify key subscribers) with
      cache := { s.cache with
        subscribers := notifySubscriber s.cache.subscribers subscriber key } }
  | .notify _ [] => some (s.goto i (.returned .stored))
  | .returned _ => none

def step (s : State V) : Event V → Option (State V)
  | .cacheSubscribe =>
    some { s with cache := { s.cache with subscribers := s.cache.subscribers ++ [[]] } }
  | .receive subscriber =>
    match s.cache.subscribers[subscriber]? with
    | some (_ :: buffer) =>
      some { s with
        cache := { s.cache with subscribers := s.cache.subscribers.set subscriber buffer } }
    | _ => none
  | .cacheGet key => some { s with calls := s.calls ++ [.readCache key] }
  | .cacheSet key value => some { s with calls := s.calls ++ [.write key value] }
  | .advance i reading => s.calls[i]?.bind (advance s i reading)

end

/-- Every entry that has not expired holds the value of the store. -/
def State.Consistent (s : State V) (now : Int) : Prop :=
  ∀ key entry, s.cache.cache.lookup key = some entry → ¬now > entry.expiry →
    s.cache.dataStore.lookup key = some entry.value

section

/-- Nothing happens to the store and to the entries. -/
def Keeps (s next : State V) : Prop :=
  next.cache.cache = s.cache.cache ∧ next.cache.dataStore = s.cache.dataStore ∧
    next.writes = s.writes

variable [DecidableEq V]

inductive Moves (s : State V) : State V → Prop
  | keep {next : State V} (keeps : Keeps s next) : Moves s next
  | fill {next : State V} (key : String) (entry : CacheEntry V)
      (cache : next.cache.cache = s.cache.cache.insert key entry)
      (store : next.cache.dataStore = s.cache.dataStore)
      (record : next.writes =
        s.writes ++ [(key, decide (s.cache.dataStore.lookup key = some entry.value))]) :
      Moves s next
  | write {next : State V} (key : String) (entry : CacheEntry V)
      (cache : next.cache.cache = s.cache.cache.insert key entry)
      (store : next.cache.dataStore = s.cache.dataStore.insert key entry.value)
      (record : next.writes = s.writes ++ [(key, true)]) : Moves s next

variable {s t : State V}

theorem moves_of_advance {i reading c} (adv : advance s i reading c = some t) : Moves s t := by
  cases c with
  | readCache k =>
    simp only [advance] at adv
    split at adv
    · split at adv <;> cases adv <;> exact .keep ⟨rfl, rfl, rfl⟩
    · cases adv
      exact .keep ⟨rfl, rfl, rfl⟩
  | readStore k =>
    simp only [advance] at adv
    split at adv <;> cases adv <;> exact .keep ⟨rfl, rfl, rfl⟩
  | fillCache k v =>
    cases adv
    exact .fill k (newEntry v reading) rfl rfl rfl
  | write k v =>
    cases adv
    exact .write k (newEntry v reading) rfl rfl rfl
  | copySubscribers k =>
    cases adv
    exact .keep ⟨rfl, rfl, rfl⟩
  | notify k subscribers =>
    cases subscribers <;> cases adv <;> exact .keep ⟨rfl, rfl, rfl⟩
  | returned out => cases adv

theorem moves_of_step {e} (took : step s e = some t) : Moves s t := by
  cases e with
  | cacheSubscribe | cacheGet k | cacheSet k v =>
    cases took
    exact .keep ⟨rfl, rfl, rfl⟩
  | receive subscriber =>
    simp only [step] at took
    split at took <;> cases took
    exact .keep ⟨rfl, rfl, rfl⟩
  | advance i rd =>
    obtain ⟨c, -, adv⟩ := bind_eq_some_iff.mp took
    exact moves_of_advance adv

end

section

variable [DecidableEq V] {s t : State V}

/-- The entry of a key holds the value of the store. -/
def State.Holds (s : State V) (key : String) (entry : CacheEntry V) : Prop :=
  s.cache.dataStore.lookup key = some entry.value

instance (s : State V) (key : String) (entry : CacheEntry V) : Decidable (s.Holds key entry) :=
  inferInstanceAs (Decidable (_ = _))

/-- The last write to an entry has decided whether the entry is right. -/
def Records (s : State V) : Prop := Decides s.cache.cache s.writes (fun _ => False) s.Holds

theorem start_records : Records (start : State V) := decides_empty

theorem Records.move (records : Records s) (moves : Moves s t) : Records t := by
  unfold Records
  cases moves with
  | keep keeps =>
    obtain ⟨cache, store, record⟩ := keeps
    rw [cache, record]
    refine records.keep t.Holds fun k e _ => .inr ⟨id, ?_⟩
    unfold State.Holds
    rw [store]
  | fill k e cache store record =>
    rw [← store] at record
    rw [cache, record]
    refine records.write t.Holds k e (fun _ _ => id) fun x hit _ => ?_
    unfold State.Holds
    rw [store]
  | write k e cache store record =>
    have right : t.Holds k e := by
      unfold State.Holds
      rw [store, Finmap.lookup_insert]
    rw [cache, record, ← decide_eq_true right]
    refine records.write t.Holds k e (fun _ _ => id) fun x hit ne => ?_
    unfold State.Holds
    rw [store, Finmap.lookup_insert_of_ne _ ne]

theorem run_records {es : List (Event V)} {final : State V}
    (run : exec step start es = some final) : Records final :=
  exec_invariant Records start_records (fun _ _ _ held took => held.move (moves_of_step took)) run

end

section

variable [DecidableEq V]

/-- The cache is right exactly if every entry whose last write was of something else than the store
held at that moment has expired. -/
theorem cache_consistent_iff {events : List (Event V)} {final : State V}
    (run : exec step start events = some final) (now : Int) :
    final.Consistent now ↔
      ∀ key entry, final.cache.cache.lookup key = some entry →
        last (under key) final.writes = some false → now > entry.expiry :=
  (run_records run).right_iff (fun _ => id) fun entry => now > entry.expiry

def refill : List (Event Nat) :=
  [.cacheSet "a" 1, .advance 0 ⟨0, 0⟩, .advance 0 ⟨0, 0⟩, .advance 0 ⟨0, 0⟩,
    .cacheGet "a", .advance 1 ⟨6 * 10 ^ 9, 6 * 10 ^ 9⟩, .advance 1 ⟨6 * 10 ^ 9, 6 * 10 ^ 9⟩,
    .cacheSet "a" 2]

theorem set_after_refill_consistent :
    let clock : Reading := ⟨6 * 10 ^ 9, 6 * 10 ^ 9⟩
    ∃ final, exec step start
        (refill ++ [.advance 1 clock, .advance 2 clock, .advance 2 clock, .advance 2 clock]) =
        some final ∧
      final.Consistent (7 * 10 ^ 9) := by
  intro clock
  refine exists_exec (fun s => s.writes = [("a", true), ("a", true), ("a", true)])
    (by decide +kernel) ?_
  intro final run writes
  refine (cache_consistent_iff run _).mpr fun key entry _ stale => ?_
  rw [writes] at stale
  by_cases same : "a" = key <;> simp [last, under, same] at stale

/-- The set falls between the get's look at the store and its write to the cache. -/
theorem refill_overwrites_set :
    let clock : Reading := ⟨6 * 10 ^ 9, 6 * 10 ^ 9⟩
    ∃ final, exec step start
        (refill ++ [.advance 2 clock, .advance 2 clock, .advance 2 clock, .advance 1 clock]) =
        some final ∧
      (∀ call ∈ final.calls, call.isReturned = true) ∧
      final.cache.cache.lookup "a" = some ⟨1, 6 * 10 ^ 9, 11 * 10 ^ 9⟩ ∧
      final.cache.dataStore.lookup "a" = some 2 ∧ ¬final.Consistent (7 * 10 ^ 9) := by
  intro clock
  refine exists_exec (fun s => (∀ call ∈ s.calls, call.isReturned = true) ∧
    s.cache.cache.lookup "a" = some ⟨1, 6 * 10 ^ 9, 11 * 10 ^ 9⟩ ∧
    s.cache.dataStore.lookup "a" = some 2) (by decide +kernel) ?_
  intro final _ ⟨quiet, entry, store⟩
  refine ⟨quiet, entry, store, fun consistent => ?_⟩
  have same := consistent "a" _ entry (by decide)
  rw [store] at same
  cases same

end

end AsyncPractice.WriteThrough
