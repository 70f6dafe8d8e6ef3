import AsyncPractice.GoMap
import AsyncPractice.Runs

/- The lock with TTL and fencing tokens of solution1_TTLWithFencingToken in
challenge09_solution.go. Every call and every cleanup pass is one step; readings of the clock and
durations are nanoseconds. -/
namespace AsyncPractice.FencingLock

/-- The version is always 1 and never read. -/
structure LockInfo where
  holder : String
  timestamp : Int
  ttl : Int
  fencingToken : UInt64

structure DistributedLock where
  locks : GoMap String LockInfo
  fencingToken : UInt64

def maxDuration : Int := 2 ^ 63 - 1

def minDuration : Int := - 2 ^ 63

/-- t.Sub(u), which saturates. -/
def sub (t u : Int) : Int := max minDuration (min maxDuration (t - u))

def create (dl : DistributedLock) (nodeID resource : String) (ttl stamped : Int) :
    DistributedLock × UInt64 × Bool :=
  let token := dl.fencingToken + 1
  (⟨dl.locks.insert resource ⟨nodeID, stamped, ttl, token⟩, token⟩, token, true)

/-- `checked` is the reading inside time.Since and `stamped` the later reading that becomes the
timestamp. -/
def acquire (dl : DistributedLock) (nodeID resource : String) (ttl checked stamped : Int) :
    DistributedLock × UInt64 × Bool :=
  match dl.locks.lookup resource with
  | some lock =>
    if sub checked lock.timestamp < lock.ttl then
      if lock.holder ≠ nodeID then (dl, 0, false)
      else
        let lock := { lock with timestamp := stamped, ttl }
        ({ dl with locks := dl.locks.insert resource lock }, lock.fencingToken, true)
    else create dl nodeID resource ttl stamped
  | none => create dl nodeID resource ttl stamped

def release (dl : DistributedLock) (nodeID resource : String) (token : UInt64) :
    DistributedLock × Bool :=
  match dl.locks.lookup resource with
  | none => (dl, false)
  | some lock =>
    if lock.holder ≠ nodeID ∨ lock.fencingToken ≠ token then (dl, false)
    else ({ dl with locks := dl.locks.erase resource }, true)

def extend (dl : DistributedLock) (nodeID resource : String) (token : UInt64)
    (newTTL now : Int) : DistributedLock × Bool :=
  match dl.locks.lookup resource with
  | none => (dl, false)
  | some lock =>
    if lock.holder ≠ nodeID ∨ lock.fencingToken ≠ token then (dl, false)
    else
      let lock := { lock with timestamp := now, ttl := newTTL }
      ({ dl with locks := dl.locks.insert resource lock }, true)

/-- The test of the cleanup goroutine. -/
def expired (dl : DistributedLock) (now : Int) (resource : String) : Bool :=
  (dl.locks.lookup resource).any fun lock => lock.ttl < sub now lock.timestamp

/-- A pass of the cleanup goroutine, which visits the locks in some order. -/
def cleanup (dl : DistributedLock) (now : Int) (order : List String) : DistributedLock :=
  { dl with locks := order.foldl (fun locks resource =>
      if expired dl now resource then locks.erase resource else locks) dl.locks }

/-- What the callers know about the last successful acquire of a resource: whose it was, when it
was last acquired or extended and for how long, and whether it was released since. -/
structure Grant where
  holder : String
  refreshed : Int
  ttl : Int
  released : Bool
  deriving DecidableEq

/-- The lock with the last reading of the clock and with what its callers were told: the grants,
the tokens returned so far and the number of locks created. -/
structure State where
  dl : DistributedLock
  clock : Int
  grants : String → Option Grant
  tokens : List UInt64
  created : Nat

def init (now : Int) : State := ⟨⟨∅, 0⟩, now, fun _ => none, [], 0⟩

inductive Event
  | acquire (nodeID resource : String) (ttl checked stamped : Int)
  | release (nodeID resource : String) (token : UInt64)
  | extend (nodeID resource : String) (token : UInt64) (newTTL now : Int)
  | cleanup (now : Int) (order : List String)

/-- There is no lock to wait for or to acquire again. -/
def creates (dl : DistributedLock) (resource : String) (checked : Int) : Bool :=
  (dl.locks.lookup resource).all fun lock => lock.ttl ≤ sub checked lock.timestamp

def step (s : State) : Event → Option State
  | .acquire nodeID resource ttl checked stamped =>
    if s.clock ≤ checked ∧ checked ≤ stamped then
      let (dl, token, ok) := acquire s.dl nodeID resource ttl checked stamped
      if ok then
        some { dl
               clock := stamped
               grants := Function.update s.grants resource (some ⟨nodeID, stamped, ttl, false⟩)
               tokens := s.tokens ++ [token]
               created := if creates s.dl resource checked then s.created + 1 else s.created }
      else some { s with dl, clock := stamped }
    else none
  | .release nodeID resource token =>
    let (dl, ok) := release s.dl nodeID resource token
    let grant := (s.grants resource).map fun grant => { grant with released := true }
    some { s with dl, grants := if ok then Function.update s.grants resource grant else s.grants }
  | .extend nodeID resource token newTTL now =>
    if s.clock ≤ now then
      let (dl, ok) := extend s.dl nodeID resource token newTTL now
      let grant := (s.grants resource).map fun grant =>
        { grant with refreshed := now, ttl := newTTL }
      some { s with
        dl
        clock := now
        grants := if ok then Function.update s.grants resource grant else s.grants }
    else none
  | .cleanup now order =>
    if s.clock ≤ now ∧ GoMap.Ranges order s.dl.locks then
      some { s with dl := cleanup s.dl now order, clock := now }
    else none

/- The record of a lock is the last grant its callers know of, until it is released or its time is
over. -/
open List Function GoMap Runs

variable {dl : DistributedLock} {n resource : String} {ttl checked stamped now : Int}
  {token : UInt64}

inductive Acquired (dl : DistributedLock) (nodeID resource : String) (ttl checked stamped : Int) :
    DistributedLock × UInt64 × Bool → Prop
  | refused {lock : LockInfo} (present : dl.locks.lookup resource = some lock)
      (busy : lock.holder ≠ nodeID) :
      Acquired dl nodeID resource ttl checked stamped (dl, 0, false)
  | again {lock : LockInfo} (present : dl.locks.lookup resource = some lock)
      (own : lock.holder = nodeID) (old : creates dl resource checked = false) :
      Acquired dl nodeID resource ttl checked stamped
        ({ dl with locks := dl.locks.insert resource { lock with timestamp := stamped, ttl } },
          lock.fencingToken, true)
  | created (new : creates dl resource checked = true) :
      Acquired dl nodeID resource ttl checked stamped (create dl nodeID resource ttl stamped)

theorem acquired_acquire (dl n resource ttl checked stamped) :
    Acquired dl n resource ttl checked stamped (acquire dl n resource ttl checked stamped) := by
  unfold acquire
  split
  next lock hit =>
    split
    next live =>
      split
      next busy =>
        exact .refused hit busy
      next own =>
        refine .again hit (not_not.mp own) ?_
        simp [creates, hit, live]
    next past =>
      refine .created ?_
      simpa [creates, hit] using past
  next absent =>
    exact .created (by simp [creates, absent])

theorem acquire_of_creates (new : creates dl resource checked = true) :
    acquire dl n resource ttl checked stamped = create dl n resource ttl stamped := by
  unfold acquire
  split
  next lock hit =>
    rw [creates, hit] at new
    have past : lock.ttl ≤ sub checked lock.timestamp := of_decide_eq_true new
    rw [if_neg (Int.not_lt.mpr past)]
  · rfl

theorem release_cases (dl n resource token) :
    release dl n resource token = (dl, false) ∨
      ∃ lock, dl.locks.lookup resource = some lock ∧ lock.fencingToken = token ∧
        release dl n resource token = ({ dl with locks := dl.locks.erase resource }, true) := by
  unfold release
  split
  · exact .inl rfl
  next lock hit =>
    split
    · exact .inl rfl
    next own =>
      exact .inr ⟨lock, hit, not_not.mp (not_or.mp own).2, rfl⟩

theorem extend_cases (dl n resource token newTTL now) :
    extend dl n resource token newTTL now = (dl, false) ∨
      ∃ lock, dl.locks.lookup resource = some lock ∧ lock.fencingToken = token ∧
        extend dl n resource token newTTL now =
          (⟨dl.locks.insert resource ⟨lock.holder, now, newTTL, lock.fencingToken⟩,
            dl.fencingToken⟩, true) := by
  unfold extend
  split
  · exact .inl rfl
  next lock hit =>
    split
    · exact .inl rfl
    next own =>
      exact .inr ⟨lock, hit, not_not.mp (not_or.mp own).2, rfl⟩

/-- Saturation never makes a time that has passed longer. -/
theorem sub_le {t u} (later : u ≤ t) : sub t u ≤ t - u := by
  unfold sub minDuration maxDuration
  omega

theorem expired_iff : expired dl now resource = true ↔
    ∃ lock, dl.locks.lookup resource = some lock ∧ lock.ttl < sub now lock.timestamp := by
  simp [expired, Option.any_eq_true]

theorem lookup_cleanup {order} (ranges : Ranges order dl.locks) (resource) :
    (cleanup dl now order).locks.lookup resource =
      if expired dl now resource then none else dl.locks.lookup resource := by
  unfold cleanup
  rw [lookup_foldl_erase_ite order (fun resource => expired dl now resource = true)]
  by_cases late : expired dl now resource = true
  · rw [if_pos late, if_pos]
    obtain ⟨lock, hit, -⟩ := expired_iff.mp late
    exact ⟨ranges.mem_iff.mpr (Finmap.mem_of_lookup_eq_some hit), late⟩
  · rw [if_neg late, if_neg (fun both => late both.2)]

def LockInfo.grant (lock : LockInfo) : Grant := ⟨lock.holder, lock.timestamp, lock.ttl, false⟩

structure Sound (s : State) : Prop where
  held : ∀ resource lock, s.dl.locks.lookup resource = some lock →
    s.grants resource = some lock.grant
  stamped : ∀ resource lock, s.dl.locks.lookup resource = some lock → lock.timestamp ≤ s.clock
  lapsed : ∀ resource grant, s.dl.locks.lookup resource = none → s.grants resource = some grant →
    grant.released = true ∨ grant.ttl ≤ s.clock - grant.refreshed
  counted : s.dl.fencingToken = UInt64.ofNat s.created
  numbered : ∀ resource lock, s.dl.locks.lookup resource = some lock →
    lock.fencingToken.toNat ≤ s.created
  issued : ∀ token ∈ s.tokens, token.toNat ≤ s.created

theorem Sound.next_token {s} (inv : Sound s) :
    s.dl.fencingToken + 1 = UInt64.ofNat (s.created + 1) := by
  rw [inv.counted, UInt64.ofNat_add]
  rfl

section

variable {s t : State} {clock : Int}

theorem Sound.lapsed_later (inv : Sound s) (later : s.clock ≤ clock) {grant}
    (absent : s.dl.locks.lookup resource = none) (known : s.grants resource = some grant) :
    grant.released = true ∨ grant.ttl ≤ clock - grant.refreshed := by
  rcases inv.lapsed resource grant absent known with released | elapsed
  · exact .inl released
  · exact .inr (by omega)

theorem Sound.put (inv : Sound s) (resource lock) {fencingToken tokens created}
    (later : s.clock ≤ clock) (stamped : lock.timestamp ≤ clock)
    (cnt : fencingToken = UInt64.ofNat created) (more : s.created ≤ created)
    (numbered : lock.fencingToken.toNat ≤ created)
    (issued : ∀ token ∈ tokens, token.toNat ≤ created) :
    Sound ⟨⟨s.dl.locks.insert resource lock, fencingToken⟩, clock,
      update s.grants resource (some lock.grant), tokens, created⟩ := by
  refine ⟨?_, ?_, ?_, cnt, ?_, issued⟩
  · intro x record hit
    rcases lookup_insert_cases hit with ⟨rfl, rfl⟩ | ⟨ne, hit⟩
    · exact update_self ..
    · exact (update_of_ne ne ..).trans (inv.held x record hit)
  · intro x record hit
    rcases lookup_insert_cases hit with ⟨-, rfl⟩ | ⟨-, hit⟩
    · exact stamped
    · exact (inv.stamped x record hit).trans later
  · intro x grant absent known
    dsimp only at absent known
    rw [lookup_insert_ite] at absent
    split at absent
    · cases absent
    next ne =>
      rw [update_of_ne ne] at known
      exact inv.lapsed_later later absent known
  · intro x record hit
    rcases lookup_insert_cases hit with ⟨-, rfl⟩ | ⟨-, hit⟩
    · exact numbered
    · exact (inv.numbered x record hit).trans more

theorem Sound.remove (inv : Sound s) {locks grants} (later : s.clock ≤ clock)
    (kept : ∀ resource lock, locks.lookup resource = some lock →
      s.dl.locks.lookup resource = some lock ∧ grants resource = s.grants resource)
    (lapsed : ∀ resource grant, locks.lookup resource = none → grants resource = some grant →
      grant.released = true ∨ grant.ttl ≤ clock - grant.refreshed) :
    Sound ⟨⟨locks, s.dl.fencingToken⟩, clock, grants, s.tokens, s.created⟩ := by
  refine ⟨?_, ?_, lapsed, inv.counted, ?_, inv.issued⟩
  · intro resource lock hit
    obtain ⟨pre, eq⟩ := kept resource lock hit
    exact eq.trans (inv.held resource lock pre)
  · intro resource lock hit
    exact (inv.stamped resource lock (kept resource lock hit).1).trans later
  · intro resource lock hit
    exact inv.numbered resource lock (kept resource lock hit).1

theorem Sound.tick (inv : Sound s) (later : s.clock ≤ clock) : Sound { s with clock } :=
  inv.remove later (fun _ _ hit => ⟨hit, rfl⟩)
    (fun _ _ absent known => inv.lapsed_later later absent known)

variable (inv : Sound s)
include inv

theorem Sound.acquire {ttl checked stamped}
    (took : step s (.acquire n resource ttl checked stamped) = some t) : Sound t := by
  simp only [step] at took
  obtain ⟨⟨later, ord⟩, took⟩ := Option.ite_none_right_eq_some.mp took
  generalize ended : FencingLock.acquire s.dl n resource ttl checked stamped = result at took
  have acquired := ended ▸ acquired_acquire s.dl n resource ttl checked stamped
  have clock : s.clock ≤ stamped := later.trans ord
  cases acquired with
  | refused hit busy => exact Option.some.inj took ▸ inv.tick clock
  | @again lock hit own old =>
    cases took
    rw [← own]
    refine inv.put resource { lock with timestamp := stamped, ttl } clock
      (Int.le_refl stamped) ?_ ?_ ?_ ?_
    · rw [old]
      exact inv.counted
    · rw [old]
      exact Nat.le_refl _
    · rw [old]
      exact inv.numbered resource lock hit
    · rw [old]
      exact forall_mem_snoc inv.issued (inv.numbered resource lock hit)
  | created new =>
    cases took
    have small : (s.dl.fencingToken + 1).toNat ≤ s.created + 1 := by
      rw [inv.next_token, UInt64.toNat_ofNat']
      exact Nat.mod_le _ _
    rw [new]
    refine inv.put resource ⟨n, stamped, ttl, s.dl.fencingToken + 1⟩ clock
      (Int.le_refl stamped) inv.next_token (Nat.le_succ _) small ?_
    refine forall_mem_snoc (fun x pre => ?_) small
    exact (inv.issued x pre).trans (Nat.le_succ _)

theorem Sound.release (took : step s (.release n resource token) = some t) : Sound t := by
  simp only [step] at took
  cases took
  rcases release_cases s.dl n resource token with failed | ⟨lock, hit, -, released⟩
  · rw [failed]
    exact inv
  · rw [released, if_pos rfl]
    refine inv.remove (Int.le_refl _) ?_ ?_
    · intro x record found
      obtain ⟨ne, pre⟩ := lookup_erase_cases found
      exact ⟨pre, update_of_ne ne ..⟩
    · intro x grant absent known
      rw [lookup_erase_ite] at absent
      by_cases same : x = resource
      · rw [same, update_self, inv.held resource lock hit] at known
        exact .inl (Option.some.inj known ▸ rfl)
      · rw [update_of_ne same] at known
        rw [if_neg same] at absent
        exact inv.lapsed x grant absent known

theorem Sound.extend {newTTL} (took : step s (.extend n resource token newTTL now) = some t) :
    Sound t := by
  simp only [step] at took
  obtain ⟨later, rfl⟩ := guard_some.mp took
  rcases extend_cases s.dl n resource token newTTL now with failed | ⟨lock, hit, -, done⟩
  · rw [failed]
    exact inv.tick later
  · rw [done, inv.held resource lock hit]
    exact inv.put resource ⟨lock.holder, now, newTTL, lock.fencingToken⟩ later
      (Int.le_refl now) inv.counted (Nat.le_refl _) (inv.numbered resource lock hit)
      inv.issued

theorem Sound.cleanup {order} (took : step s (.cleanup now order) = some t) : Sound t := by
  obtain ⟨⟨later, ranges⟩, rfl⟩ := guard_some.mp took
  have look : ∀ resource, (FencingLock.cleanup s.dl now order).locks.lookup resource =
      if expired s.dl now resource then none else s.dl.locks.lookup resource :=
    lookup_cleanup ranges
  refine inv.remove later ?_ ?_
  · intro resource lock hit
    replace hit := (look resource).symm.trans hit
    split at hit
    · cases hit
    · exact ⟨hit, rfl⟩
  · intro resource grant absent known
    replace absent := (look resource).symm.trans absent
    split at absent
    · -- the record was there and its time was over at this pass
      rename_i late
      obtain ⟨lock, hit, past⟩ := expired_iff.mp late
      have elapsed := sub_le ((inv.stamped resource lock hit).trans later)
      rw [inv.held resource lock hit] at known
      cases known
      refine Or.inr ?_
      dsimp only [LockInfo.grant]
      omega
    · exact inv.lapsed_later later absent known

theorem Sound.step {e} (took : step s e = some t) : Sound t := by
  cases e with
  | acquire n resource ttl checked stamped => exact inv.acquire took
  | release n resource token => exact inv.release took
  | extend n resource token newTTL now => exact inv.extend took
  | cleanup now order => exact inv.cleanup took

end

theorem init_sound (now) : Sound (init now) := by
  have empty : ∀ resource lock, (init now).dl.locks.lookup resource ≠ some lock := by
    intro resource lock hit
    cases hit
  exact ⟨fun resource lock hit => absurd hit (empty resource lock),
    fun resource lock hit => absurd hit (empty resource lock),
    fun resource grant _ known => (by cases known), rfl,
    fun resource lock hit => absurd hit (empty resource lock),
    fun token mem => by cases mem⟩

variable {s : State}

/-- Where acquire makes a new lock, the last grant was released or its time is over. -/
theorem Sound.lapsed_of_creates (inv : Sound s) (later : s.clock ≤ checked)
    (new : creates s.dl resource checked = true) {grant} (known : s.grants resource = some grant) :
    grant.released = true ∨ grant.ttl ≤ checked - grant.refreshed := by
  cases present : s.dl.locks.lookup resource with
  | none =>
    rcases inv.lapsed resource grant present known with released | elapsed
    · exact .inl released
    · exact .inr (by omega)
  | some lock =>
    rw [creates, present] at new
    have past : lock.ttl ≤ sub checked lock.timestamp := of_decide_eq_true new
    have elapsed := sub_le ((inv.stamped resource lock present).trans later)
    rw [inv.held resource lock present] at known
    cases known
    exact .inr (past.trans elapsed)

theorem Sound.lt_new_token (inv : Sound s) (room : s.created + 1 < 2 ^ 64) {earlier}
    (issued : earlier ∈ s.tokens) : earlier < s.dl.fencingToken + 1 := by
  have small := inv.issued earlier issued
  have token : (s.dl.fencingToken + 1).toNat = s.created + 1 := by
    rw [inv.next_token, UInt64.toNat_ofNat']
    exact Nat.mod_eq_of_lt room
  rw [UInt64.lt_iff_toNat_lt, token]
  omega

/-- The holder changes only after a release or when the time is over; new locks get larger tokens
than all before, as long as the counter does not wrap around; and without the token of the present
lock neither release nor extend does anything. -/
theorem fencing_lock_safe {start : Int} {events : List Event} {s : State}
    (run : exec step (init start) events = some s) :
    (∀ nodeID resource ttl checked stamped dl token, s.clock ≤ checked →
      acquire s.dl nodeID resource ttl checked stamped = (dl, token, true) →
        (∀ grant, s.grants resource = some grant → grant.holder ≠ nodeID →
          grant.released = true ∨ grant.ttl ≤ checked - grant.refreshed) ∧
        (creates s.dl resource checked = true → s.created + 1 < 2 ^ 64 →
          ∀ earlier ∈ s.tokens, earlier < token)) ∧
    ∀ nodeID resource token,
      (∀ lock, s.dl.locks.lookup resource = some lock → lock.fencingToken ≠ token) →
        release s.dl nodeID resource token = (s.dl, false) ∧
        ∀ newTTL now, extend s.dl nodeID resource token newTTL now = (s.dl, false) := by
  have sound : Sound s := exec_invariant Sound (init_sound start)
    (fun _ _ _ held stepped => held.step stepped) run
  refine ⟨?_, ?_⟩
  · intro nodeID resource ttl checked stamped dl token later ended
    have acquired := ended ▸ acquired_acquire s.dl nodeID resource ttl checked stamped
    cases acquired with
    | @again lock present own old =>
      constructor
      · intro grant known other
        rw [sound.held resource lock present] at known
        cases known
        exact absurd own other
      · intro new
        rw [old] at new
        cases new
    | created new =>
      constructor
      · intro grant known _
        exact sound.lapsed_of_creates later new known
      · intro _ room earlier member
        exact sound.lt_new_token room member
  · intro nodeID resource token wrong
    constructor
    · rcases release_cases s.dl nodeID resource token with failed | ⟨lock, present, same, -⟩
      · exact failed
      · exact absurd same (wrong lock present)
    · intro newTTL now
      rcases extend_cases s.dl nodeID resource token newTTL now with
        failed | ⟨lock, present, same, -⟩
      · exact failed
      · exact absurd same (wrong lock present)

def extendedOnce : List Event :=
  [.acquire "a" "r" 10 0 0, .extend "a" "r" 1 20 5, .acquire "b" "r" 10 12 12]

theorem fencing_lock_safe_expired :
    ∃ s, exec step (init 0) extendedOnce = some s ∧
      s.grants "r" = some ⟨"a", 5, 20, false⟩ ∧
      (acquire s.dl "b" "r" 10 25 25).2 = (2, true) ∧
      (20 : Int) ≤ 25 - 5 ∧ ∀ earlier ∈ s.tokens, earlier < 2 := by
  refine exists_exec (fun s => s.grants "r" = some ⟨"a", 5, 20, false⟩ ∧ s.clock = 12 ∧
    creates s.dl "r" 25 = true ∧ s.created = 1 ∧ (acquire s.dl "b" "r" 10 25 25).2 = (2, true))
    (by decide) ?_
  intro s run ⟨grants, clock, new, made, ended⟩
  have safe := (fencing_lock_safe run).1 "b" "r" 10 25 25 _ 2 (by omega) (Prod.ext rfl ended)
  refine ⟨grants, ended, ?_, safe.2 new (by omega)⟩
  rcases safe.1 _ grants (by decide) with released | elapsed
  · cases released
  · exact elapsed

def brief : Event := .acquire "a" "r" 0 0 0

theorem exec_brief (n) :
    ∃ s, exec step (init 0) (List.replicate n brief) = some s ∧ s.clock = 0 ∧
      creates s.dl "r" 0 = true ∧ s.dl.fencingToken = UInt64.ofNat n ∧
      (0 < n → 1 ∈ s.tokens) := by
  induction n with
  | zero => exact ⟨_, rfl, rfl, by decide, rfl, fun none => absurd none (by decide)⟩
  | succ n ih =>
    obtain ⟨s, run, clock, new, counter, x⟩ := ih
    have took : ∃ t, step s brief = some t ∧ t.clock = 0 ∧ t.dl = (create s.dl "a" "r" 0 0).1 ∧
        t.tokens = s.tokens ++ [s.dl.fencingToken + 1] := by
      simp only [brief, step, clock, acquire_of_creates new]
      exact ⟨_, rfl, rfl, rfl, rfl⟩
    obtain ⟨t, took, still, dl, tokens⟩ := took
    have token : s.dl.fencingToken + 1 = UInt64.ofNat (n + 1) := by
      rw [counter, UInt64.ofNat_add]
      rfl
    refine ⟨t, ?_, still, ?_, ?_, ?_⟩
    · rw [replicate_succ']
      exact exec_snoc_some.mpr ⟨s, run, took⟩
    · rw [dl, creates, create, Finmap.lookup_insert]
      rfl
    · rw [dl]
      exact token
    · intro _
      rw [tokens, token]
      cases n with
      | zero => exact mem_append_right _ (mem_singleton_self _)
      | succ n => exact mem_append_left _ (x (Nat.succ_pos n))

/-- After 2 ^ 64 - 1 locks the next token is zero. -/
theorem token_wraps_around :
    ∃ s, exec step (init 0) (List.replicate (2 ^ 64 - 1) brief) = some s ∧
      creates s.dl "r" 0 = true ∧ (acquire s.dl "b" "r" 10 0 0).2 = (0, true) ∧
      1 ∈ s.tokens := by
  obtain ⟨s, run, -, new, counter, first⟩ := exec_brief (2 ^ 64 - 1)
  refine ⟨s, run, new, ?_, first (by decide)⟩
  have wrapped : UInt64.ofNat (2 ^ 64 - 1) + 1 = 0 := by decide
  rw [acquire_of_creates new, create, counter, wrapped]

end AsyncPractice.FencingLock
