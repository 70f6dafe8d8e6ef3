import AsyncPractice.LastWrite
import AsyncPractice.Pool
import AsyncPractice.Runs

/- cacheGet and cacheSet of solution2_HotKeyHandling in challenge15_solution.go, for calls that run
side by side. Every operation on a sync.Map and every increment of a counter is one step. Counters
are never replaced, so that the key names the counter. -/
namespace AsyncPractice.HotKeys

open Option List LastWrite Runs

structure HotKeyCache (V : Type) where
  globalCache : GoMap String V
  localReplica : GoMap String V
  hotKeys : GoMap String Int64
  threshold : Int64

inductive Outcome (V : Type)
  | got (value : Option V)
  | stored

/-- A call by the operation that it does next. A store to the replica is the end of a promotion or
of cacheSet. -/
inductive Call (V : Type)
  | loadReplica (key : String)
  | loadGlobal (key : String)
  | locateCounter (key : String) (value : V)
  | addAccess (key : String) (value : V)
  | loadPromoted (key : String) (value : V)
  | storeGlobal (key : String) (value : V)
  | loadIsHot (key : String) (value : V)
  | storeReplica (key : String) (value : V) (outcome : Outcome V)
  | returned (outcome : Outcome V)

/-- `stores` records for every store to the replica its key and whether it stored what the global
cache held at that moment; it only observes. -/
structure State (V : Type) where
  cache : HotKeyCache V
  calls : List (Call V)
  stores : List (String × Bool)

def start {V : Type} (threshold : Int64) : State V := ⟨⟨∅, ∅, ∅, threshold⟩, [], []⟩

inductive Event (V : Type)
  | cacheGet (key : String)
  | cacheSet (key : String) (value : V)
  | advance (i : Nat)

variable {V : Type}

def State.goto (s : State V) (i : Nat) (call : Call V) : State V :=
  { s with calls := s.calls.set i call }

section

variable [DecidableEq V]

def advance (s : State V) (i : Nat) : Call V → Option (State V)
  | .loadReplica key =>
    match s.cache.localReplica.lookup key with
    | some value => some (s.goto i (.locateCounter key value))
    | none => some (s.goto i (.loadGlobal key))
  | .loadGlobal key =>
    match s.cache.globalCache.lookup key with
    | some value => some (s.goto i (.locateCounter key value))
    | none => some (s.goto i (.returned (.got none)))
  | .locateCounter key value =>
    let hotKeys := match s.cache.hotKeys.lookup key with
      | some _ => s.cache.hotKeys
      | none => s.cache.hotKeys.insert key 0
    some { s.goto i (.addAccess key value) with cache := { s.cache with hotKeys } }
  | .addAccess key value =>
    let newCount := (s.cache.hotKeys.lookup key).getD 0 + 1
    let call := if newCount = s.cache.threshold then .loadPromoted key value
      else .returned (.got (some value))
    some { s.goto i call with
      cache := { s.cache with hotKeys := s.cache.hotKeys.insert key newCount } }
  | .loadPromoted key value =>
    match s.cache.globalCache.lookup key with
    | some promoted => some (s.goto i (.storeReplica key promoted (.got (some value))))
    | none => some (s.goto i (.returned (.got (some value))))
  | .storeGlobal key value =>
    some { s.goto i (.loadIsHot key value) with
      cache := { s.cache with globalCache := s.cache.globalCache.insert key value } }
  | .loadIsHot key value =>
    match s.cache.localReplica.lookup key with
    | some _ => some (s.goto i (.storeReplica key value .stored))
    | none => some (s.goto i (.returned .stored))
  | .storeReplica key value outcome =>
    some { s.goto i (.returned outcome) with
      cache := { s.cache with localReplica := s.cache.localReplica.insert key value }
      stores := s.stores ++ [(key, decide (s.cache.globalCache.lookup key = some value))] }
  | .returned _ => none

def step (s : State V) : Event V → Option (State V)
  | .cacheGet key => some { s with calls := s.calls ++ [.loadReplica key] }
  | .cacheSet key value => some { s with calls := s.calls ++ [.storeGlobal key value] }
  | .advance i => s.calls[i]?.bind (advance s i)

end

def Call.isReturned : Call V → Bool
  | .returned _ => true
  | _ => false

def State.Quiet (s : State V) : Prop := ∀ call ∈ s.calls, call.isReturned = true

def State.Coherent (s : State V) : Prop :=
  ∀ key value, s.cache.localReplica.lookup key = some value →
    s.cache.globalCache.lookup key = some value

/-- A cacheSet that has stored its value globally and will store it in the replica if the key is
there. -/
def Call.Settles (key : String) : Call V → Prop
  | .loadIsHot other _ => other = key
  | .storeReplica other _ .stored => other = key
  | _ => False

section

/-- A move of a call that neither writes to one of the caches nor ends a cacheSet. -/
def Passes (s next : State V) : Prop :=
  ∃ (i : Nat) (old new : Call V) (hotKeys : GoMap String Int64), s.calls[i]? = some old ∧
    (∀ key, ¬old.Settles key) ∧
    next = { s.goto i new with cache := { s.cache with hotKeys } }

variable {s t : State V}

theorem passes_goto {i old} (here : s.calls[i]? = some old) (free : ∀ key, ¬old.Settles key) (new) :
    Passes s (s.goto i new) :=
  ⟨i, old, new, s.cache.hotKeys, here, free, rfl⟩

variable [DecidableEq V]

inductive Moves (s : State V) : State V → Prop
  | join (call : Call V) : Moves s { s with calls := s.calls ++ [call] }
  | pass {next : State V} (passes : Passes s next) : Moves s next
  | publish (i : Nat) (key : String) (value : V)
      (here : s.calls[i]? = some (.storeGlobal key value)) :
      Moves s { s.goto i (.loadIsHot key value) with
        cache := { s.cache with globalCache := s.cache.globalCache.insert key value } }
  | cold (i : Nat) (key : String) (value : V) (here : s.calls[i]? = some (.loadIsHot key value))
      (absent : s.cache.localReplica.lookup key = none) :
      Moves s (s.goto i (.returned .stored))
  | hot (i : Nat) (key : String) (value : V) (here : s.calls[i]? = some (.loadIsHot key value)) :
      Moves s (s.goto i (.storeReplica key value .stored))
  | store (i : Nat) (key : String) (value : V) (outcome : Outcome V)
      (here : s.calls[i]? = some (.storeReplica key value outcome)) :
      Moves s { s.goto i (.returned outcome) with
        cache := { s.cache with localReplica := s.cache.localReplica.insert key value }
        stores := s.stores ++ [(key, decide (s.cache.globalCache.lookup key = some value))] }

theorem moves_of_advance {i c} (here : s.calls[i]? = some c) (adv : advance s i c = some t) :
    Moves s t := by
  cases c with
  | loadReplica k | loadGlobal k | loadPromoted k v =>
    simp only [advance] at adv
    split at adv <;> cases adv <;> exact .pass (passes_goto here (fun _ => id) _)
  | locateCounter k v | addAccess k v =>
    cases adv
    exact .pass ⟨i, _, _, _, here, fun _ => id, rfl⟩
  | storeGlobal k v =>
    cases adv
    exact .publish i k v here
  | loadIsHot k v =>
    simp only [advance] at adv
    split at adv
    · cases adv
      exact .hot i k v here
    next absent =>
      cases adv
      exact .cold i k v here absent
  | storeReplica k v out =>
    cases adv
    exact .store i k v out here
  | returned out => cases adv

theorem moves_of_step {e} (took : step s e = some t) : Moves s t := by
  cases e with
  | cacheGet k | cacheSet k v =>
    cases took
    exact .join _
  | advance i =>
    obtain ⟨c, here, adv⟩ := bind_eq_some_iff.mp took
    exact moves_of_advance here adv

end

section

variable {s t : State V}

/-- Another call than the one that moves settles the key, or the one that moves still does. -/
theorem settled_of_goto {i old new} (here : s.calls[i]? = some old) {k}
    (still : old.Settles k → new.Settles k) (pre : ∃ c ∈ s.calls, c.Settles k) :
    ∃ c ∈ s.calls.set i new, c.Settles k := by
  have moved : ∃ c ∈ s.calls.set i new ++ [], c.Settles k :=
    Pool.exists_moved here pre fun own => .inl (still own)
  rwa [append_nil] at moved

variable [DecidableEq V]

def State.Holds (s : State V) (key : String) (value : V) : Prop :=
  s.cache.globalCache.lookup key = some value

instance (s : State V) (key : String) (value : V) : Decidable (s.Holds key value) :=
  inferInstanceAs (Decidable (_ = _))

/-- The last store to the replica of a key has decided whether the replica is right, unless a
cacheSet of the key has yet to come to its own store. -/
def Mirrors (s : State V) : Prop :=
  Decides s.cache.localReplica s.stores (fun key => ∃ call ∈ s.calls, call.Settles key) s.Holds

theorem start_mirrors (threshold) : Mirrors (start threshold : State V) := decides_empty

theorem Mirrors.keep (mirrors : Mirrors s) (calls) (hotKeys : GoMap String Int64)
    (kept : ∀ k v, s.cache.localReplica.lookup k = some v →
      (∃ call ∈ s.calls, call.Settles k) → ∃ call ∈ calls, call.Settles k) :
    Mirrors { s with calls, cache := { s.cache with hotKeys } } := by
  refine Decides.keep mirrors s.Holds fun k v hit => ?_
  by_cases settling : ∃ call ∈ s.calls, call.Settles k
  · exact .inl (kept k v hit settling)
  · exact .inr ⟨settling, Iff.rfl⟩

theorem Mirrors.move (mirrors : Mirrors s) (moves : Moves s t) : Mirrors t := by
  cases moves with
  | join c =>
    refine mirrors.keep _ s.cache.hotKeys fun k v _ pre => ?_
    obtain ⟨settler, mem, settles⟩ := pre
    exact ⟨settler, mem_append_left _ mem, settles⟩
  | pass passes =>
    obtain ⟨i, old, new, hotKeys, here, free, rfl⟩ := passes
    refine mirrors.keep _ hotKeys fun k v _ pre => ?_
    exact settled_of_goto here (fun own => absurd own (free k)) pre
  | publish i k v here =>
    refine Decides.keep mirrors _ fun x found _ => ?_
    by_cases eq : x = k
    · exact .inl ⟨_, Pool.mem_moved here, eq.symm⟩
    · by_cases settling : ∃ c ∈ s.calls, c.Settles x
      · exact .inl (settled_of_goto here (fun own => False.elim own) settling)
      · refine .inr ⟨settling, ?_⟩
        unfold State.Holds
        rw [Finmap.lookup_insert_of_ne _ eq]
  | cold i k v here absent =>
    refine mirrors.keep _ s.cache.hotKeys fun x found hit pre => ?_
    refine settled_of_goto here (fun own => ?_) pre
    obtain rfl : k = x := own
    rw [absent] at hit
    cases hit
  | hot i k v here =>
    refine mirrors.keep _ s.cache.hotKeys fun x found _ pre => ?_
    exact settled_of_goto here id pre
  | store i k v out here =>
    refine Decides.write mirrors s.Holds k v (fun x ne pre => ?_) fun _ _ _ => Iff.rfl
    refine settled_of_goto here (fun own => ?_) pre
    cases out with
    | got v => exact False.elim own
    | stored => exact absurd own.symm ne

theorem run_mirrors {threshold : Int64} {es : List (Event V)} {final : State V}
    (run : exec step (start threshold) es = some final) : Mirrors final :=
  exec_invariant Mirrors (start_mirrors threshold)
    (fun _ _ _ held took => held.move (moves_of_step took)) run

end

section

variable [DecidableEq V]

/-- Whenever no call is in progress, the replica is right exactly if the last store to the replica
of each key stored what the global cache held at that moment. -/
theorem replica_coherent_iff {threshold : Int64} {events : List (Event V)} {final : State V}
    (run : exec step (start threshold) events = some final) (quiet : final.Quiet) :
    final.Coherent ↔ ∀ key, last (under key) final.stores ≠ some false := by
  have mirrors := run_mirrors run
  have settled : ∀ key, ¬∃ call ∈ final.calls, call.Settles key := by
    rintro key ⟨call, member, settles⟩
    have ended := quiet call member
    cases call <;> first | exact settles | cases ended
  constructor
  · intro coherent key stale
    cases found : final.cache.localReplica.lookup key with
    | none =>
      rw [mirrors.absent key found] at stale
      cases stale
    | some value =>
      exact (mirrors.right_iff settled fun _ => False).mp
        (fun key value found _ => coherent key value found) key value found stale
  · intro fresh key value found
    exact (mirrors.right_iff settled fun _ => False).mpr
      (fun key value _ stale => fresh key stale) key value found id

theorem set_after_promotion_coherent :
    let events : List (Event Nat) := .cacheSet "a" 1 :: List.replicate 2 (.advance 0) ++
      .cacheGet "a" :: List.replicate 6 (.advance 1) ++
      .cacheSet "a" 2 :: List.replicate 3 (.advance 2)
    ∃ final, exec step (start 1) events = some final ∧ final.Coherent ∧
      final.cache.localReplica.lookup "a" = some 2 := by
  intro events
  refine exists_exec (fun s => (∀ call ∈ s.calls, call.isReturned = true) ∧
    s.stores = [("a", true), ("a", true)] ∧ s.cache.localReplica.lookup "a" = some 2)
    (by decide +kernel) ?_
  intro final run ⟨quiet, stores, found⟩
  refine ⟨(replica_coherent_iff run quiet).mpr fun key => ?_, found⟩
  rw [stores]
  by_cases same : "a" = key <;> simp [last, under, same]

def promotion : List (Event Nat) :=
  [.cacheSet "a" 1, .advance 0, .advance 0] ++
    (List.range 99).flatMap (fun i => .cacheGet "a" :: List.replicate 4 (.advance (i + 1))) ++
    .cacheGet "a" :: List.replicate 5 (.advance 100)

/-- The value is set anew between the two steps of its promotion, while the key is not yet hot. -/
theorem promoted_value_stale :
    ∃ final, exec step (start 100) (promotion ++
        [.cacheSet "a" 2, .advance 101, .advance 101, .advance 100]) = some final ∧
      final.Quiet ∧ final.cache.localReplica.lookup "a" = some 1 ∧
      final.cache.globalCache.lookup "a" = some 2 := by
  refine exists_exec (fun s => (∀ call ∈ s.calls, call.isReturned = true) ∧
    s.cache.localReplica.lookup "a" = some 1 ∧ s.cache.globalCache.lookup "a" = some 2)
    (by decide +kernel) ?_
  intro final _ seen
  exact seen

end

end AsyncPractice.HotKeys
