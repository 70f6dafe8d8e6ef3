import AsyncPractice.GoMap
import AsyncPractice.Runs

/- The cache of solution1_CacheStampedePrevention. Each call of cacheGet goes through its
critical sections one by one, and any number of calls interleave between them. A call makes
at most one waiter channel, so that the call names the channel. -/
namespace AsyncPractice.Singleflight

section

open Option Function

structure CacheEntry (V : Type) where
  value : V
  expiry : Int

structure LoadingKey (ι : Type) where
  loading : Bool
  waiters : List ι

structure Channel (V : Type) where
  buffer : Option V
  closed : Bool

inductive Outcome (V : Type)
  /-- What a read from a waiter channel returns; nil from a closed and empty one. -/
  | value (v : Option V)
  | loadError
  | contextError

/-- Where a call stands between two critical sections, with its local variables. A pointer to
a `LoadingKey` is its index in the heap. -/
inductive Phase (ι V : Type)
  | idle
  | missed (key : String)
  | located (key : String) (ptr : Nat)
  | waiting
  | loading (key : String) (ptr : Nat) (waiters : List ι)
  | notifying (key : String) (ptr : Nat) (value : V) (waiters : List ι)
  | returned (outcome : Outcome V)

/-- `registered` records which channel was appended to the waiters of which `LoadingKey`; it
only observes. -/
structure State (ι V : Type) where
  data : GoMap String (CacheEntry V)
  loadingKeys : GoMap String Nat
  heap : List (LoadingKey ι)
  chan : ι → Channel V
  phase : ι → Phase ι V
  registered : List (Nat × ι)

-- Clock readings are in nanoseconds.
def defaultTTL : Int := 5 * 1000000000

variable {ι V : Type}

def init : State ι V where
  data := ∅
  loadingKeys := ∅
  heap := []
  chan := fun _ => ⟨none, false⟩
  phase := fun _ => .idle
  registered := []

variable [DecidableEq ι]

def State.goto (s : State ι V) (i : ι) (phase : Phase ι V) : State ι V :=
  { s with phase := update s.phase i phase }

def checkCache (s : State ι V) (i : ι) (key : String) (now : Int) : Option (State ι V) :=
  match s.phase i with
  | .idle =>
    match s.data.lookup key with
    | some entry =>
      if now < entry.expiry then some (s.goto i (.returned (.value (some entry.value))))
      else some (s.goto i (.missed key))
    | none => some (s.goto i (.missed key))
  | _ => none

def locateKey (s : State ι V) (i : ι) : Option (State ι V) :=
  match s.phase i with
  | .missed key =>
    match s.loadingKeys.lookup key with
    | some ptr => some (s.goto i (.located key ptr))
    | none =>
      some { s.goto i (.located key s.heap.length) with
        heap := s.heap ++ [⟨false, []⟩]
        loadingKeys := s.loadingKeys.insert key s.heap.length }
  | _ => none

/-- The section under the lock of the `LoadingKey`: join a load that runs, or start one. -/
def enterKey (s : State ι V) (i : ι) : Option (State ι V) :=
  match s.phase i with
  | .located key ptr => do
      let loadingKey ← s.heap[ptr]?
      if loadingKey.loading then
        some { s.goto i .waiting with
          heap := s.heap.set ptr { loadingKey with waiters := loadingKey.waiters ++ [i] }
          registered := s.registered ++ [(ptr, i)] }
      else
        some { s.goto i (.loading key ptr loadingKey.waiters) with
          heap := s.heap.set ptr ⟨true, []⟩ }
  | _ => none

def failLoad (s : State ι V) (i : ι) : Option (State ι V) :=
  match s.phase i with
  | .loading _ ptr _ => do
      let loadingKey ← s.heap[ptr]?
      some { s.goto i (.returned .loadError) with
        heap := s.heap.set ptr { loadingKey with loading := false } }
  | _ => none

def storeValue (s : State ι V) (i : ι) (value : V) (now : Int) : Option (State ι V) :=
  match s.phase i with
  | .loading key ptr waiters =>
    some { s.goto i (.notifying key ptr value waiters) with
      data := s.data.insert key ⟨value, now + defaultTTL⟩ }
  | _ => none

/-- One pass of the loop that sends the value to a waiter and closes its channel. A send
blocks on a full channel. -/
def notifyWaiter (s : State ι V) (i : ι) : Option (State ι V) :=
  match s.phase i with
  | .notifying key ptr value (waiter :: waiters) =>
    match s.chan waiter with
    | ⟨none, false⟩ =>
      some { s.goto i (.notifying key ptr value waiters) with
        chan := update s.chan waiter ⟨some value, true⟩ }
    | _ => none
  | _ => none

def finishLoad (s : State ι V) (i : ι) : Option (State ι V) :=
  match s.phase i with
  | .notifying key ptr value [] => do
      let loadingKey ← s.heap[ptr]?
      some { s.goto i (.returned (.value (some value))) with
        heap := s.heap.set ptr { loadingKey with loading := false }
        loadingKeys := s.loadingKeys.erase key }
  | _ => none

def awaitValue (s : State ι V) (i : ι) : Option (State ι V) :=
  match s.phase i, s.chan i with
  | .waiting, ⟨some value, closed⟩ =>
    some { s.goto i (.returned (.value (some value))) with
      chan := update s.chan i ⟨none, closed⟩ }
  | .waiting, ⟨none, true⟩ => some (s.goto i (.returned (.value none)))
  | _, _ => none

def cancelWait (s : State ι V) (i : ι) : Option (State ι V) :=
  match s.phase i with
  | .waiting => some (s.goto i (.returned .contextError))
  | _ => none

inductive Action (ι V : Type)
  | checkCache (i : ι) (key : String) (now : Int)
  | locateKey (i : ι)
  | enterKey (i : ι)
  | failLoad (i : ι)
  | storeValue (i : ι) (value : V) (now : Int)
  | notifyWaiter (i : ι)
  | finishLoad (i : ι)
  | awaitValue (i : ι)
  | cancelWait (i : ι)

def step (s : State ι V) : Action ι V → Option (State ι V)
  | .checkCache i key now => checkCache s i key now
  | .locateKey i => locateKey s i
  | .enterKey i => enterKey s i
  | .failLoad i => failLoad s i
  | .storeValue i value now => storeValue s i value now
  | .notifyWaiter i => notifyWaiter s i
  | .finishLoad i => finishLoad s i
  | .awaitValue i => awaitValue s i
  | .cancelWait i => cancelWait s i

/-- The waiters a call took over when it started to load and has yet to notify. -/
def Phase.snapshot : Phase ι V → List ι
  | .loading _ _ waiters => waiters
  | .notifying _ _ _ waiters => waiters
  | _ => []

/-- What a step can do. The steps that only move a call on, and at most change what the cache
and its map of keys hold, are one case. -/
inductive Moves (s : State ι V) : Action ι V → State ι V → Prop
  | pass {action : Action ι V} (i : ι) (phase : Phase ι V) (data : GoMap String (CacheEntry V))
      (carried : phase.snapshot = (s.phase i).snapshot) :
      Moves s action { s.goto i phase with data := data }
  | allocate (i : ι) (key : String) (missed : s.phase i = .missed key)
      (absent : s.loadingKeys.lookup key = none) :
      Moves s (.locateKey i)
        { s.goto i (.located key s.heap.length) with
          heap := s.heap ++ [⟨false, []⟩]
          loadingKeys := s.loadingKeys.insert key s.heap.length }
  | join (i : ι) (key : String) (ptr : Nat) (loadingKey : LoadingKey ι)
      (located : s.phase i = .located key ptr) (found : s.heap[ptr]? = some loadingKey)
      (busy : loadingKey.loading = true) :
      Moves s (.enterKey i)
        { s.goto i .waiting with
          heap := s.heap.set ptr { loadingKey with waiters := loadingKey.waiters ++ [i] }
          registered := s.registered ++ [(ptr, i)] }
  | start (i : ι) (key : String) (ptr : Nat) (loadingKey : LoadingKey ι)
      (located : s.phase i = .located key ptr) (found : s.heap[ptr]? = some loadingKey)
      (free : loadingKey.loading = false) :
      Moves s (.enterKey i)
        { s.goto i (.loading key ptr loadingKey.waiters) with heap := s.heap.set ptr ⟨true, []⟩ }
  | fail (i : ι) (key : String) (ptr : Nat) (waiters : List ι) (loadingKey : LoadingKey ι)
      (loading : s.phase i = .loading key ptr waiters) (found : s.heap[ptr]? = some loadingKey) :
      Moves s (.failLoad i)
        { s.goto i (.returned .loadError) with
          heap := s.heap.set ptr { loadingKey with loading := false } }
  | notify (i : ι) (key : String) (ptr : Nat) (value : V) (waiter : ι) (waiters : List ι)
      (notifying : s.phase i = .notifying key ptr value (waiter :: waiters)) :
      Moves s (.notifyWaiter i)
        { s.goto i (.notifying key ptr value waiters) with
          chan := update s.chan waiter ⟨some value, true⟩ }
  | finish (i : ι) (key : String) (ptr : Nat) (value : V) (loadingKey : LoadingKey ι)
      (notifying : s.phase i = .notifying key ptr value [])
      (found : s.heap[ptr]? = some loadingKey) :
      Moves s (.finishLoad i)
        { s.goto i (.returned (.value (some value))) with
          heap := s.heap.set ptr { loadingKey with loading := false }
          loadingKeys := s.loadingKeys.erase key }
  | take (i : ι) (value : V) (closed : Bool) (waiting : s.phase i = .waiting)
      (ready : s.chan i = ⟨some value, closed⟩) :
      Moves s (.awaitValue i)
        { s.goto i (.returned (.value (some value))) with
          chan := update s.chan i ⟨none, closed⟩ }

theorem moves_of_step {s t : State ι V} {a : Action ι V} (took : step s a = some t) :
    Moves s a t := by
  cases a with
  | checkCache i k now =>
    simp only [step, checkCache] at took
    split at took
    next idle =>
      split at took
      · split at took <;> cases took <;> exact .pass i _ s.data (by rw [idle]; rfl)
      · cases took
        exact .pass i _ s.data (by rw [idle]; rfl)
    · cases took
  | locateKey i =>
    simp only [step, locateKey] at took
    split at took
    next k missed =>
      split at took
      · cases took
        exact .pass i _ s.data (by rw [missed]; rfl)
      next absent =>
        cases took
        exact .allocate i k missed absent
    · cases took
  | enterKey i =>
    simp only [step, enterKey] at took
    split at took
    next k ptr located =>
      obtain ⟨lk, hit, took⟩ := bind_eq_some_iff.mp took
      split at took
      next busy =>
        cases took
        exact .join i k ptr lk located hit busy
      next free =>
        cases took
        exact .start i k ptr lk located hit (Bool.eq_false_iff.mpr free)
    · cases took
  | failLoad i =>
    simp only [step, failLoad] at took
    split at took
    next k ptr waiters loading =>
      obtain ⟨lk, hit, took⟩ := bind_eq_some_iff.mp took
      cases took
      exact .fail i k ptr waiters lk loading hit
    · cases took
  | storeValue i v now =>
    simp only [step, storeValue] at took
    split at took <;> cases took
    rename_i k ptr waiters loading
    exact .pass i _ _ (by rw [loading]; rfl)
  | notifyWaiter i =>
    simp only [step, notifyWaiter] at took
    split at took
    next k ptr v waiter waiters notifying =>
      split at took <;> cases took
      exact .notify i k ptr v waiter waiters notifying
    · cases took
  | finishLoad i =>
    simp only [step, finishLoad] at took
    split at took
    next k ptr v notifying =>
      obtain ⟨lk, hit, took⟩ := bind_eq_some_iff.mp took
      cases took
      exact .finish i k ptr v lk notifying hit
    · cases took
  | awaitValue i =>
    simp only [step, awaitValue] at took
    split at took
    next v closed wait ready =>
      cases took
      exact .take i v closed wait ready
    next wait _ =>
      cases took
      exact .pass i _ s.data (by rw [wait]; rfl)
    · cases took
  | cancelWait i =>
    simp only [step, cancelWait] at took
    split at took <;> cases took
    rename_i wait
    exact .pass i _ s.data (by rw [wait]; rfl)

end

open Option List Runs

variable {ι V : Type}

def Channel.Notified (c : Channel V) : Prop := c.buffer.isSome ∨ c.closed = true

/-- No channel registered on a `LoadingKey` that is not loading is still without news. -/
def ForgetsNone (s : State ι V) : Prop :=
  ∀ (ptr : Nat) (loadingKey : LoadingKey ι), s.heap[ptr]? = some loadingKey →
    loadingKey.loading = false → ∀ i, (ptr, i) ∈ s.registered → (s.chan i).Notified

/-- While no load ends with a waiter registered, no call ever has anyone to notify. -/
structure Unserved (s : State ι V) : Prop where
  snapshot : ∀ i, (s.phase i).snapshot = []
  silent : ∀ i, s.chan i = ⟨none, false⟩
  listed : ∀ ptr i, (ptr, i) ∈ s.registered ↔
    ∃ loadingKey : LoadingKey ι, s.heap[ptr]? = some loadingKey ∧ i ∈ loadingKey.waiters
  emptied : ∀ (ptr : Nat) (loadingKey : LoadingKey ι), s.heap[ptr]? = some loadingKey →
    loadingKey.loading = false → loadingKey.waiters = []

theorem init_unserved : Unserved (init : State ι V) := by
  constructor <;> simp [init, Phase.snapshot]

variable {s t : State ι V}

theorem Unserved.forgetsNone (inv : Unserved s) : ForgetsNone s := by
  intro ptr lk hit free i reg
  obtain ⟨x, eq, mem⟩ := (inv.listed ptr i).mp reg
  rw [hit, some.injEq] at eq
  subst eq
  rw [inv.emptied ptr lk hit free] at mem
  cases mem

theorem Unserved.allocate (inv : Unserved s) (snapshot : ∀ i, (t.phase i).snapshot = [])
    (silent : t.chan = s.chan) (heap : t.heap = s.heap ++ [⟨false, []⟩])
    (reg : t.registered = s.registered) : Unserved t := by
  have grown : ∀ {ptr : Nat} {lk : LoadingKey ι}, t.heap[ptr]? = some lk →
      s.heap[ptr]? = some lk ∨ lk.waiters = [] := by
    intro ptr lk hit
    rw [heap, List.getElem?_append] at hit
    split at hit
    · exact .inl hit
    · rw [List.mem_singleton.mp (mem_of_getElem? hit)]
      exact .inr rfl
  constructor
  · exact snapshot
  · intro i
    rw [silent]
    exact inv.silent i
  · intro ptr i
    rw [reg, inv.listed]
    constructor
    · rintro ⟨lk, hit, mem⟩
      have lt := (List.getElem?_eq_some_iff.mp hit).1
      exact ⟨lk, by rw [heap, getElem?_append_left lt, hit], mem⟩
    · rintro ⟨lk, hit, mem⟩
      rcases grown hit with hit | empty
      · exact ⟨lk, hit, mem⟩
      · rw [empty] at mem
        cases mem
  · intro ptr lk hit free
    rcases grown hit with hit | empty
    · exact inv.emptied ptr lk hit free
    · exact empty

variable {ptr : Nat}

theorem Unserved.set (inv : Unserved s) {old new} (found : s.heap[ptr]? = some old)
    (snapshot : ∀ i, (t.phase i).snapshot = []) (silent : t.chan = s.chan)
    (heap : t.heap = s.heap.set ptr new)
    (listed : ∀ j i, (j, i) ∈ t.registered ↔
      if j = ptr then i ∈ new.waiters else (j, i) ∈ s.registered)
    (emptied : new.loading = false → new.waiters = []) : Unserved t := by
  have lt : ptr < s.heap.length := (List.getElem?_eq_some_iff.mp found).1
  have cell : ∀ j, t.heap[j]? = if j = ptr then some new else s.heap[j]? := by
    intro j
    rw [heap, getElem?_set]
    split
    next eq =>
      subst eq
      rw [if_pos rfl]
    next ne =>
      rw [if_neg (Ne.symm ne)]
  constructor
  · exact snapshot
  · intro i
    rw [silent]
    exact inv.silent i
  · intro j i
    rw [listed, cell]
    split
    · simp
    · exact inv.listed j i
  · intro j lk hit free
    rw [cell] at hit
    split at hit
    · cases hit
      exact emptied free
    · exact inv.emptied j lk hit free

/-- A waiter that registered while a load ran has heard nothing when the load ends. -/
theorem Unserved.forgotten (inv : Unserved s) (forgetsNone : ForgetsNone t) {lk}
    (found : s.heap[ptr]? = some lk)
    (heap : t.heap = s.heap.set ptr { lk with loading := false }) (silent : t.chan = s.chan)
    (reg : t.registered = s.registered) : lk.waiters = [] := by
  have lt := (List.getElem?_eq_some_iff.mp found).1
  apply eq_nil_iff_forall_not_mem.mpr
  intro i mem
  have hit : (ptr, i) ∈ t.registered := by
    rw [reg]
    exact (inv.listed ptr i).mpr ⟨lk, found, mem⟩
  have ended : t.heap[ptr]? = some { lk with loading := false } := by
    rw [heap, getElem?_set_self lt]
  have notified := forgetsNone ptr _ ended rfl i hit
  rw [silent, inv.silent i] at notified
  rcases notified with sent | closed
  · cases sent
  · cases closed

variable [DecidableEq ι]

/-- A load that ends finds no waiter that registered while it ran. -/
def EndsAlone (s : State ι V) : Action ι V → Prop
  | .failLoad i => ∀ key ptr waiters loadingKey, s.phase i = .loading key ptr waiters →
      s.heap[ptr]? = some loadingKey → loadingKey.waiters = []
  | .finishLoad i => ∀ key ptr value loadingKey, s.phase i = .notifying key ptr value [] →
      s.heap[ptr]? = some loadingKey → loadingKey.waiters = []
  | _ => True

theorem Unserved.goto (inv : Unserved s) {i phase} (empty : phase.snapshot = []) :
    ∀ j, ((s.goto i phase).phase j).snapshot = [] := by
  intro j
  by_cases same : j = i
  · subst same
    simpa [State.goto] using empty
  · simpa [State.goto, same] using inv.snapshot j

variable {a : Action ι V}

theorem Unserved.step (inv : Unserved s) (alone : EndsAlone s a)
    (took : step s a = some t) : Unserved t := by
  have ends : ∀ {ptr : Nat} {lk : LoadingKey ι}, s.heap[ptr]? = some lk →
      ∀ j i, (j, i) ∈ s.registered ↔ if j = ptr then i ∈ lk.waiters else (j, i) ∈ s.registered := by
    intro ptr lk hit j i
    split
    next eq =>
      rw [inv.listed, eq, hit]
      simp
    · rfl
  cases moves_of_step took with
  | pass i phase data carried =>
    exact ⟨inv.goto (carried.trans (inv.snapshot i)), inv.silent, inv.listed, inv.emptied⟩
  | allocate i key missed absent =>
    apply inv.allocate
    · exact inv.goto rfl
    · rfl
    · rfl
    · rfl
  | join i key ptr lk located hit busy =>
    apply inv.set hit
    · exact inv.goto rfl
    · rfl
    · rfl
    · intro j k
      rw [mem_append, ends hit j k]
      split
      next eq =>
        simp [eq]
      next ne =>
        simp [ne]
    · intro free
      rw [busy] at free
      cases free
  | start i key ptr lk located hit free =>
    have empty := inv.emptied ptr lk hit free
    apply inv.set hit
    · exact inv.goto empty
    · rfl
    · rfl
    · intro j k
      have eq := ends hit j k
      rw [empty] at eq
      exact eq
    · intro _
      rfl
  | fail i key ptr waiters lk loading hit =>
    apply inv.set hit
    · exact inv.goto rfl
    · rfl
    · rfl
    · intro j k
      have eq := ends hit j k
      exact eq
    · exact fun _ => alone key ptr waiters lk loading hit
  | notify i key ptr v waiter waiters notifying =>
    have empty := inv.snapshot i
    rw [notifying] at empty
    cases empty
  | finish i key ptr v lk notifying hit =>
    apply inv.set hit
    · exact inv.goto rfl
    · rfl
    · rfl
    · intro j k
      have eq := ends hit j k
      exact eq
    · exact fun _ => alone key ptr v lk notifying hit
  | take i v closed wait ready =>
    rw [inv.silent i] at ready
    cases ready

theorem Unserved.endsAlone (inv : Unserved s)
    (good : ∀ t, Singleflight.step s a = some t → ForgetsNone t) : EndsAlone s a := by
  cases a with
  | failLoad i =>
    intro k ptr waiters lk loading hit
    have took : Singleflight.step s (.failLoad i) = some { s.goto i (.returned .loadError) with
          heap := s.heap.set ptr { lk with loading := false } } := by
      simp only [Singleflight.step, failLoad, loading, hit]
      rfl
    exact inv.forgotten (good _ took) hit rfl rfl rfl
  | finishLoad i =>
    intro k ptr v lk notifying hit
    have took : Singleflight.step s (.finishLoad i) = some
        { s.goto i (.returned (.value (some v))) with
          heap := s.heap.set ptr { lk with loading := false }
          loadingKeys := s.loadingKeys.erase k } := by
      simp only [Singleflight.step, finishLoad, notifying, hit]
      rfl
    exact inv.forgotten (good _ took) hit rfl rfl rfl
  | _ => trivial

/-- No waiter is forgotten exactly in the runs in which no load ends with a waiter that
registered while it ran. -/
theorem forgets_no_waiter_iff (actions : List (Action ι V)) :
    Throughout step ForgetsNone (init : State ι V) actions ↔
      Along step EndsAlone (init : State ι V) actions :=
  throughout_iff_along Unserved init_unserved (fun _ unserved => unserved.forgetsNone)
    (fun _ => True) (fun _ _ _ unserved _ alone stepped => unserved.step alone stepped)
    (fun _ _ unserved _ good => unserved.endsAlone good) (fun _ _ => trivial)

def waiterActions : List (Action Bool Nat) :=
  [.checkCache false "k" 0, .locateKey false, .enterKey false,
    .checkCache true "k" 0, .locateKey true, .enterKey true]

def unheard (s : State Bool Nat) : Bool :=
  match s.heap[0]? with
  | some loadingKey =>
    !loadingKey.loading && s.registered.contains (0, true) && (s.chan true).buffer.isNone &&
      !(s.chan true).closed
  | none => false

theorem not_forgetsNone_of_unheard {s} (observed : unheard s = true) : ¬ ForgetsNone s := by
  intro forgetsNone
  unfold unheard at observed
  split at observed
  next loadingKey hit =>
    simp only [Bool.and_eq_true, Bool.not_eq_true', contains_iff_mem,
      isNone_iff_eq_none] at observed
    obtain ⟨⟨⟨free, reg⟩, empty⟩, opened⟩ := observed
    have notified := forgetsNone 0 loadingKey hit free true reg
    simp [Channel.Notified, empty, opened] at notified
  · cases observed

/-- The load ends and call `true` hears nothing, whether loadFunc returns an error, after which the
key is still in the map, or a value. -/
theorem waiter_forgotten_after_load :
    (∃ s, exec step init (waiterActions ++ [.failLoad false]) = some s ∧
      s.loadingKeys.lookup "k" = some 0 ∧ ¬ ForgetsNone s) ∧
    ∃ s, exec step init (waiterActions ++ [.storeValue false 7 1, .finishLoad false]) = some s ∧
      ¬ ForgetsNone s := by
  constructor
  · refine exists_exec (fun s => s.loadingKeys.lookup "k" = some 0 ∧ unheard s = true)
      (by decide) fun s _ seen => ?_
    exact ⟨seen.1, not_forgetsNone_of_unheard seen.2⟩
  · exact exists_exec (fun s => unheard s = true) (by decide) fun s _ =>
      not_forgetsNone_of_unheard

end AsyncPractice.Singleflight
