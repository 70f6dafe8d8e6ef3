import AsyncPractice.Runs
import AsyncPractice.Quorum

/- The Redlock lock of solution2_RedlockAlgorithm. Every lockSingleNode and
unlockSingleNode call is one step, taken under the node's mutex; the clock is one
shared reading that only moves forward, in between steps and inside them. -/
namespace AsyncPractice.Redlock

section

open Quorum (majority)

-- Clock readings and durations are nanoseconds.
def millisecond : Int := 1000000

structure LockInfo where
  holder : String
  timestamp : Int
  ttl : Int
  value : String

/-- One lock server. Only its map of locks is read or written. -/
structure RedlockNode where
  locks : String → Option LockInfo

def RedlockNode.put (node : RedlockNode) (resource : String) (info : Option LockInfo) :
    RedlockNode :=
  ⟨Function.update node.locks resource info⟩

/-- `checked` is the reading inside time.Since and `stamped` the later reading that
becomes the timestamp. -/
def lockSingleNode (node : RedlockNode) (resource value : String) (ttl : Int)
    (checked stamped : Int) : RedlockNode × Bool :=
  if (node.locks resource).any (fun lock => checked - lock.timestamp < lock.ttl) then
    (node, false)
  else
    (node.put resource (some ⟨value, stamped, ttl, value⟩), true)

def unlockSingleNode (node : RedlockNode) (resource value : String) : RedlockNode × Bool :=
  if (node.locks resource).any (fun lock => lock.value = value) then
    (node.put resource none, true)
  else
    (node, false)

/-- The three constants of the redlock value; the quorum is over the real number of nodes. -/
def quorum (nodeCount : Nat) : Nat := majority nodeCount

def retries : Nat := 3

def drift : Int := 10 * millisecond

/-- Where one call of acquireRedlock, and the releaseRedlock that follows it, stands.
A successful call keeps the reading it computed `elapsed` from and the validity it
returned; a release keeps the reading at its start. -/
inductive Phase
  | idle
  | locking (retry : Nat) (startTime : Int) (index lockedNodes : Nat)
  | unlocking (retry index : Nat)
  | sleeping (retry : Nat) (wake : Int)
  | failed
  | held (readAt : Int) (validity : Int)
  | releasing (readAt : Int) (validity : Int) (startedAt : Int) (index : Nat)
  | released (readAt : Int) (validity : Int) (startedAt : Int)
  deriving DecidableEq

def Phase.acquired : Phase → Option (Int × Int)
  | held readAt validity => some (readAt, validity)
  | releasing readAt validity _ _ => some (readAt, validity)
  | released readAt validity _ => some (readAt, validity)
  | _ => none

def Phase.releaseStart : Phase → Option Int
  | releasing _ _ startedAt _ => some startedAt
  | released _ _ startedAt => some startedAt
  | _ => none

structure Call where
  resource : String
  value : String
  ttl : Int

/-- All calls of all clients. No two of them use the same value. -/
structure Workload (Id : Type) where
  call : Id → Call
  distinct : Function.Injective (fun id => (call id).value)

structure State (N : Nat) (Id : Type) where
  now : Int
  nodes : Fin N → RedlockNode
  phase : Id → Phase

inductive Event (Id : Type)
  | tick (elapsed : Nat)
  | acquire (id : Id) (pause : Nat)
  | release (id : Id)

variable {N : Nat} {Id : Type} [DecidableEq Id]

def init (N : Nat) (Id : Type) : State N Id :=
  ⟨0, fun _ => ⟨fun _ => none⟩, fun _ => .idle⟩

def State.enter (s : State N Id) (id : Id) (phase : Phase) : State N Id :=
  { s with phase := Function.update s.phase id phase }

def State.setNode (s : State N Id) (n : Fin N) (node : RedlockNode) : State N Id :=
  { s with nodes := Function.update s.nodes n node }

def State.advance (s : State N Id) (elapsed : Nat) : State N Id :=
  { s with now := s.now + elapsed }

def lockStep (call : Call) (s : State N Id) (id : Id) (pause retry : Nat) (startTime : Int)
    (n : Fin N) (lockedNodes : Nat) : State N Id :=
  let attempt := lockSingleNode (s.nodes n) call.resource call.value call.ttl s.now
    (s.now + pause)
  ((s.advance pause).setNode n attempt.1).enter id
    (.locking retry startTime (n + 1) (if attempt.2 then lockedNodes + 1 else lockedNodes))

/-- The test after the loop. On failure the call goes on to unlock every node. -/
def decideStep (call : Call) (s : State N Id) (id : Id) (retry : Nat) (startTime : Int)
    (lockedNodes : Nat) : State N Id :=
  let validity := call.ttl - (s.now - startTime) - drift
  if quorum N ≤ lockedNodes ∧ 0 < validity then
    s.enter id (.held s.now validity)
  else
    s.enter id (.unlocking retry 0)

def unlockStep (call : Call) (s : State N Id) (id : Id) (n : Fin N) (phase : Phase) :
    State N Id :=
  (s.setNode n (unlockSingleNode (s.nodes n) call.resource call.value).1).enter id phase

/-- The next step of the acquireRedlock call `id`. -/
def acquireRedlock (call : Call) (s : State N Id) (id : Id) (pause : Nat) :
    Option (State N Id) :=
  match s.phase id with
  | .idle => some (s.enter id (.locking 0 s.now 0 0))
  | .locking retry startTime index lockedNodes =>
    if inside : index < N then
      some (lockStep call s id pause retry startTime ⟨index, inside⟩ lockedNodes)
    else
      some (decideStep call s id retry startTime lockedNodes)
  | .unlocking retry index =>
    if inside : index < N then
      some (unlockStep call s id ⟨index, inside⟩ (.unlocking retry (index + 1)))
    else
      some (s.enter id (.sleeping retry (s.now + retry * 10 * millisecond)))
  | .sleeping retry wake =>
    if wake ≤ s.now then
      if retry + 1 < retries then
        some (s.enter id (.locking (retry + 1) s.now 0 0))
      else
        some (s.enter id .failed)
    else
      none
  | _ => none

/-- The next step of the releaseRedlock call that ends a successful acquisition. -/
def releaseRedlock (call : Call) (s : State N Id) (id : Id) : Option (State N Id) :=
  match s.phase id with
  | .held readAt validity => some (s.enter id (.releasing readAt validity s.now 0))
  | .releasing readAt validity startedAt index =>
    if inside : index < N then
      some (unlockStep call s id ⟨index, inside⟩
        (.releasing readAt validity startedAt (index + 1)))
    else
      some (s.enter id (.released readAt validity startedAt))
  | _ => none

def step (w : Workload Id) (s : State N Id) : Event Id → Option (State N Id)
  | .tick elapsed => some (s.advance elapsed)
  | .acquire id pause => acquireRedlock (w.call id) s id pause
  | .release id => releaseRedlock (w.call id) s id

/-- `u` lies in the validity period of call `id`: from the reading behind `elapsed` for
the returned validity, cut short where its own releaseRedlock starts. -/
def State.Valid (s : State N Id) (id : Id) (u : Int) : Prop :=
  ∃ readAt validity, (s.phase id).acquired = some (readAt, validity) ∧
    readAt ≤ u ∧ u < readAt + validity ∧
    ∀ startedAt, (s.phase id).releaseStart = some startedAt → u < startedAt

end

open Function

variable {N : Nat} {Id : Type}

section

variable (s : State N Id) (id other : Id) (n m : Fin N) (node : RedlockNode) (phase : Phase)
  (elapsed : Nat)

@[simp] theorem setNode_now : (s.setNode n node).now = s.now := rfl

@[simp] theorem setNode_phase : (s.setNode n node).phase = s.phase := rfl

@[simp] theorem setNode_nodes : (s.setNode n node).nodes n = node := by
  simp [State.setNode]

theorem setNode_nodes_ne (ne : m ≠ n) : (s.setNode n node).nodes m = s.nodes m := by
  simp [State.setNode, ne]

@[simp] theorem advance_now : (s.advance elapsed).now = s.now + elapsed := rfl

theorem now_le_advance : s.now ≤ (s.advance elapsed).now := by
  rw [advance_now]
  omega

@[simp] theorem advance_phase : (s.advance elapsed).phase = s.phase := rfl

variable [DecidableEq Id]

@[simp] theorem enter_now : (s.enter id phase).now = s.now := rfl

@[simp] theorem enter_nodes : (s.enter id phase).nodes = s.nodes := rfl

@[simp] theorem enter_phase : (s.enter id phase).phase id = phase := by
  simp [State.enter]

theorem enter_phase_ne (ne : other ≠ id) : (s.enter id phase).phase other = s.phase other := by
  simp [State.enter, ne]

end

variable {node : RedlockNode} {r v : String} {ttl checked inv : Int} {lock : LockInfo}

theorem lockSingleNode_granted (granted : (lockSingleNode node r v ttl checked inv).2 = true)
    (hit : node.locks r = some lock) : lock.timestamp + lock.ttl ≤ checked := by
  unfold lockSingleNode at granted
  split at granted
  · cases granted
  next expired =>
    simp only [hit, Option.any_some, decide_eq_true_eq] at expired
    omega

theorem lockSingleNode_locks (granted : (lockSingleNode node r v ttl checked inv).2 = true) :
    (lockSingleNode node r v ttl checked inv).1.locks =
      update node.locks r (some ⟨v, inv, ttl, v⟩) := by
  unfold lockSingleNode at granted ⊢
  split at granted
  · cases granted
  next free =>
    simp only [free]
    rfl

theorem lockSingleNode_refused (refused : (lockSingleNode node r v ttl checked inv).2 = false) :
    (lockSingleNode node r v ttl checked inv).1 = node := by
  unfold lockSingleNode at refused ⊢
  split at refused
  next taken =>
    simp only [taken, ↓reduceIte]
  · cases refused

theorem unlockSingleNode_other {k} (hit : node.locks k = some lock) (foreign : lock.value ≠ v) :
    (unlockSingleNode node r v).1.locks k = some lock := by
  unfold unlockSingleNode
  split
  next matched =>
    have ne : k ≠ r := by
      rintro rfl
      simp [hit, foreign] at matched
    simp [RedlockNode.put, ne, hit]
  · exact hit

/-- Until when the locks of the current attempt are in force at least, on the nodes that
granted them. -/
def Phase.expiry (ttl : Int) : Phase → Option Int
  | locking _ startTime _ _ => some (startTime + ttl)
  | held readAt validity => some (readAt + validity + drift)
  | releasing readAt validity _ _ => some (readAt + validity + drift)
  | released readAt validity _ => some (readAt + validity + drift)
  | _ => none

/-- The reading behind `elapsed`; for a call that has yet to take it, the clock itself. -/
def Phase.readTime (now : Int) : Phase → Int
  | held readAt _ => readAt
  | releasing readAt _ _ _ => readAt
  | released readAt _ _ => readAt
  | _ => now

def Phase.Timely (now : Int) : Phase → Prop
  | locking _ startTime _ _ => startTime ≤ now
  | releasing _ _ startedAt _ => startedAt ≤ now
  | released _ _ startedAt => startedAt ≤ now
  | _ => True

/-- How the counter lockedNodes relates to the nodes that granted the current attempt. -/
def Phase.Counts (nodes : Finset (Fin N)) : Phase → Prop
  | locking _ _ index lockedNodes => nodes.card = lockedNodes ∧ ∀ n ∈ nodes, n.val < index
  | held _ _ => quorum N ≤ nodes.card
  | releasing _ _ _ _ => quorum N ≤ nodes.card
  | released _ _ _ => quorum N ≤ nodes.card
  | _ => nodes = ∅

/-- The lock of call `id` still stands on node `n` and lasts past its expiry. -/
def Kept (w : Workload Id) (s : State N Id) (id : Id) (n : Fin N) : Prop :=
  ∃ until' lock, (s.phase id).expiry (w.call id).ttl = some until' ∧
    (s.nodes n).locks (w.call id).resource = some lock ∧
    lock.value = (w.call id).value ∧ until' ≤ lock.timestamp + lock.ttl

/-- Call `id` has expired by time `t` or has started its release by then. -/
def EndedBy (w : Workload Id) (s : State N Id) (id : Id) (t : Int) : Prop :=
  (∃ until', (s.phase id).expiry (w.call id).ttl = some until' ∧ until' ≤ t) ∨
    ∃ startedAt, (s.phase id).releaseStart = some startedAt ∧ startedAt ≤ t

/-- The invariant. `owned id` are the nodes that granted the current attempt of `id`.
Where two calls for one resource both own a node, one of them had ended when the other
took its reading. -/
structure Owns (w : Workload Id) (s : State N Id) (owned : Id → Finset (Fin N)) : Prop where
  timely : ∀ id, (s.phase id).Timely s.now
  counts : ∀ id, (s.phase id).Counts (owned id)
  placed : ∀ id, ∀ n ∈ owned id, Kept w s id n ∨ EndedBy w s id s.now
  ordered : ∀ a b n, a ≠ b → (w.call a).resource = (w.call b).resource →
    n ∈ owned a → n ∈ owned b →
    EndedBy w s a ((s.phase b).readTime s.now) ∨ EndedBy w s b ((s.phase a).readTime s.now)

structure Extends (w : Workload Id) (s t : State N Id) (id : Id) : Prop where
  expiry : (t.phase id).expiry (w.call id).ttl = (s.phase id).expiry (w.call id).ttl
  release : ∀ startedAt, (s.phase id).releaseStart = some startedAt →
    (t.phase id).releaseStart = some startedAt
  read : (s.phase id).readTime s.now ≤ (t.phase id).readTime t.now

variable {w : Workload Id} {s t : State N Id} {early late : Int} {id : Id}
  {owned : Id → Finset (Fin N)}

theorem EndedBy.extend (extended : Extends w s t id) (later : early ≤ late)
    (ended : EndedBy w s id early) : EndedBy w t id late := by
  rcases ended with ⟨until', expiry, past⟩ | ⟨startedAt, release, past⟩
  · exact .inl ⟨until', extended.expiry.trans expiry, by omega⟩
  · exact .inr ⟨startedAt, extended.release startedAt release, by omega⟩

theorem Kept.extend {n} (extended : Extends w s t id) (eq : ∀ lock, lock.value = (w.call id).value →
      (s.nodes n).locks (w.call id).resource = some lock →
      (t.nodes n).locks (w.call id).resource = some lock) (kept : Kept w s id n) :
    Kept w t id n := by
  obtain ⟨until', lock, expiry, hit, v, past⟩ := kept
  exact ⟨until', lock, extended.expiry.trans expiry, eq lock v hit, v, past⟩

theorem readTime_mono (phase : Phase) (later : early ≤ late) :
    phase.readTime early ≤ phase.readTime late := by
  cases phase <;> simp [Phase.readTime, later]

theorem timely_mono {phase : Phase} (timely : phase.Timely early) (later : early ≤ late) :
    phase.Timely late := by
  cases phase <;> simp only [Phase.Timely] at timely ⊢ <;> omega

/-- Steps that grant no lock: owned nodes are kept or dropped, and no lock of another
call's value disappears. -/
theorem Owns.carry {kept} (owns : Owns w s owned) (later : s.now ≤ t.now)
    (timely : ∀ id, (t.phase id).Timely t.now) (counts : ∀ id, (t.phase id).Counts (kept id))
    (fewer : ∀ id, kept id ⊆ owned id) (extended : ∀ id, ∀ n ∈ kept id, Extends w s t id)
    (placed : ∀ id, ∀ n ∈ kept id, Kept w s id n → Kept w t id n ∨ EndedBy w t id t.now) :
    Owns w t kept := by
  refine ⟨timely, counts, ?_, ?_⟩
  · intro id n mem
    rcases owns.placed id n (fewer id mem) with standing | ended
    · exact placed id n mem standing
    · exact .inr (ended.extend (extended id n mem) later)
  · intro a b n ne r inA inB
    have extendA := extended a n inA
    have extendB := extended b n inB
    rcases owns.ordered a b n ne r (fewer a inA) (fewer b inB) with ended | ended
    · exact .inl (ended.extend extendA extendB.read)
    · exact .inr (ended.extend extendB extendA.read)

theorem Owns.advance (owns : Owns w s owned) (elapsed : Nat) :
    Owns w (s.advance elapsed) owned := by
  have later := now_le_advance s elapsed
  refine owns.carry later (fun id => timely_mono (owns.timely id) later) owns.counts
    (fun _ => Finset.Subset.refl _) ?_ (fun _ _ _ kept => .inl kept)
  intro id n mem
  exact ⟨rfl, fun _ release => release, readTime_mono _ later⟩

/-- Unlocking with the value of `id` takes no lock away from the other calls, and none
from `id` itself unless it is releasing. -/
theorem Owns.unlock (owns : Owns w s owned) (id n)
    (done : owned id = ∅ ∨ ∃ startedAt, (s.phase id).releaseStart = some startedAt ∧
      startedAt ≤ s.now) :
    Owns w (s.setNode n (unlockSingleNode (s.nodes n) (w.call id).resource
      (w.call id).value).1) owned := by
  have extended : ∀ x, Extends w s (s.setNode n (unlockSingleNode (s.nodes n)
      (w.call id).resource (w.call id).value).1) x :=
    fun x => ⟨rfl, fun _ release => release, le_refl _⟩
  refine owns.carry (le_refl _) owns.timely owns.counts (fun _ => Finset.Subset.refl _)
    (fun x _ _ => extended x) ?_
  intro x m mem kept
  by_cases self : x = id
  · subst x
    rcases done with none | started
    · simp [none] at mem
    · exact .inr (.inr started)
  · refine .inl (kept.extend (extended x) ?_)
    intro lock v hit
    by_cases here : m = n
    · subst m
      rw [setNode_nodes]
      apply unlockSingleNode_other hit
      rw [v]
      exact fun eq => self (w.distinct eq)
    · rw [setNode_nodes_ne _ _ _ _ here]
      exact hit

structure Granted (w : Workload Id) (s t : State N Id) (id : Id) (n : Fin N) (retry : Nat)
    (startTime : Int) (lockedNodes : Nat) : Prop where
  before : s.phase id = .locking retry startTime n lockedNodes
  after : t.phase id = .locking retry startTime (n + 1) (lockedNodes + 1)
  others : ∀ other, other ≠ id → t.phase other = s.phase other
  later : s.now ≤ t.now
  elsewhere : ∀ m, m ≠ n → t.nodes m = s.nodes m
  unrelated : ∀ resource, resource ≠ (w.call id).resource →
    (t.nodes n).locks resource = (s.nodes n).locks resource
  written : ∃ lock, (t.nodes n).locks (w.call id).resource = some lock ∧
    lock.value = (w.call id).value ∧ lock.ttl = (w.call id).ttl ∧ s.now ≤ lock.timestamp
  expired : ∀ lock, (s.nodes n).locks (w.call id).resource = some lock →
    lock.timestamp + lock.ttl ≤ s.now

namespace Granted

variable {n : Fin N} {retry : Nat} {startTime : Int} {lockedNodes : Nat}
  (grant : Granted w s t id n retry startTime lockedNodes)
include grant

theorem extended (other : Id) : Extends w s t other := by
  by_cases self : other = id
  · subst other
    refine ⟨by rw [grant.before, grant.after]; rfl, ?_, ?_⟩
    · simp [grant.before, Phase.releaseStart]
    · simpa [grant.before, grant.after, Phase.readTime] using grant.later
  · refine ⟨by rw [grant.others other self], by simp [grant.others other self], ?_⟩
    rw [grant.others other self]
    exact readTime_mono _ grant.later

variable {x : Id}

/-- Whoever owned a node for the same resource has ended when the node is granted anew. -/
theorem ended (owns : Owns w s owned) (mem : n ∈ owned x)
    (r : (w.call x).resource = (w.call id).resource) : EndedBy w t x t.now := by
  apply EndedBy.extend (grant.extended x) grant.later
  rcases owns.placed x n mem with ⟨until', lock, expiry, hit, -, past⟩ | ended
  · have expired := grant.expired lock (r ▸ hit)
    exact .inl ⟨until', expiry, by omega⟩
  · exact ended

theorem stands (owns : Owns w s owned) {m} (mem : m ∈ owned x)
    (ne : m ≠ n ∨ (w.call x).resource ≠ (w.call id).resource) :
    Kept w t x m ∨ EndedBy w t x t.now := by
  rcases owns.placed x m mem with kept | ended
  · refine .inl (kept.extend (grant.extended x) ?_)
    intro lock _ hit
    by_cases here : m = n
    · subst m
      rw [grant.unrelated _ (ne.resolve_left (fun differs => differs rfl))]
      exact hit
    · rw [grant.elsewhere m here]
      exact hit
  · exact .inr (ended.extend (grant.extended x) grant.later)

theorem kept (owns : Owns w s owned) : Kept w t id n := by
  obtain ⟨lock, hit, v, ttl, inv⟩ := grant.written
  have began := owns.timely id
  rw [grant.before] at began
  refine ⟨startTime + (w.call id).ttl, lock, by rw [grant.after]; rfl, hit, v, ?_⟩
  have began : startTime ≤ s.now := began
  omega

theorem counts (owns : Owns w s owned) : (t.phase id).Counts (insert n (owned id)) := by
  have cnt := owns.counts id
  rw [grant.before] at cnt
  rw [grant.after]
  have fresh : n ∉ owned id := fun mem => Nat.lt_irrefl _ (cnt.2 n mem)
  refine ⟨by rw [Finset.card_insert_of_notMem fresh, cnt.1], ?_⟩
  intro m mem
  rcases Finset.mem_insert.mp mem with rfl | old
  · exact Nat.lt_succ_self _
  · exact Nat.lt_succ_of_lt (cnt.2 m old)

theorem timely (owns : Owns w s owned) (x) : (t.phase x).Timely t.now := by
  have pre := owns.timely x
  by_cases self : x = id
  · subst x
    rw [grant.before] at pre
    rw [grant.after]
    exact le_trans pre grant.later
  · rw [grant.others x self]
    exact timely_mono pre grant.later

end Granted

section

variable [DecidableEq Id]

theorem Owns.enter (owns : Owns w s owned) (id phase) (timely : phase.Timely s.now)
    (counts : phase.Counts (owned id))
    (expiry : phase.expiry (w.call id).ttl = (s.phase id).expiry (w.call id).ttl)
    (release : ∀ startedAt, (s.phase id).releaseStart = some startedAt →
      phase.releaseStart = some startedAt)
    (read : (s.phase id).readTime s.now ≤ phase.readTime s.now) :
    Owns w (s.enter id phase) owned := by
  have extended : ∀ x, Extends w s (s.enter id phase) x := by
    intro x
    by_cases self : x = id
    · subst x
      exact ⟨by rw [enter_phase, expiry], by simpa using release, by simpa using read⟩
    · refine ⟨?_, ?_, ?_⟩ <;> simp [enter_phase_ne _ _ _ _ self]
  refine owns.carry (le_refl _) ?_ ?_ (fun _ => Finset.Subset.refl _) (fun x _ _ => extended x)
    (fun x _ _ kept => .inl (kept.extend (extended x) fun _ _ hit => hit))
  · intro x
    by_cases self : x = id
    · subst x
      simpa using timely
    · simpa [enter_phase_ne _ _ _ _ self] using owns.timely x
  · intro x
    by_cases self : x = id
    · subst x
      simpa using counts
    · simpa [enter_phase_ne _ _ _ _ self] using owns.counts x

theorem Owns.drop (owns : Owns w s owned) (id phase) (timely : phase.Timely s.now)
    (counts : phase.Counts (∅ : Finset (Fin N))) :
    Owns w (s.enter id phase) (update owned id ∅) := by
  have extended : ∀ x, ∀ n ∈ update owned id ∅ x, x ≠ id ∧ Extends w s (s.enter id phase) x := by
    intro x n mem
    by_cases self : x = id
    · subst x
      simp at mem
    · refine ⟨self, ?_, ?_, ?_⟩ <;> simp [enter_phase_ne _ _ _ _ self]
  refine owns.carry (le_refl _) ?_ ?_ ?_ (fun x n mem => (extended x n mem).2)
    (fun x n mem kept => .inl (kept.extend (extended x n mem).2 fun _ _ hit => hit))
  · intro x
    by_cases self : x = id
    · subst x
      simpa using timely
    · simpa [enter_phase_ne _ _ _ _ self] using owns.timely x
  · intro x
    by_cases self : x = id
    · subst x
      simpa using counts
    · simpa [enter_phase_ne _ _ _ _ self, self] using owns.counts x
  · intro x
    by_cases self : x = id
    · subst x
      simp
    · simp [self]

theorem lockStep_granted (id) (n : Fin N) (pause retry : Nat) (startTime) (lockedNodes : Nat)
    (phase : s.phase id = .locking retry startTime n lockedNodes)
    (granted : (lockSingleNode (s.nodes n) (w.call id).resource (w.call id).value
      (w.call id).ttl s.now (s.now + pause)).2 = true) :
    Granted w s (lockStep (w.call id) s id pause retry startTime n lockedNodes) id n retry
      startTime lockedNodes := by
  have wrote := lockSingleNode_locks granted
  have expired : ∀ lock, (s.nodes n).locks (w.call id).resource = some lock →
      lock.timestamp + lock.ttl ≤ s.now := fun _ => lockSingleNode_granted granted
  unfold lockStep
  dsimp only
  rw [if_pos granted]
  refine ⟨phase, enter_phase _ _ _, fun x self => enter_phase_ne _ _ _ _ self, ?_,
    fun m ne => setNode_nodes_ne _ _ _ _ ne, ?_, ?_, expired⟩
  · simp only [enter_now, setNode_now, advance_now]
    omega
  · intro r ne
    rw [enter_nodes, setNode_nodes, wrote, update_of_ne ne]
  · rw [enter_nodes, setNode_nodes, wrote, update_self]
    exact ⟨_, rfl, rfl, rfl, by dsimp only; omega⟩

/-- A granted lock. The earlier owners of the node for this resource have all ended, so
the new owner comes after each of them. -/
theorem Owns.grant (owns : Owns w s owned) {id n retry startTime lockedNodes}
    (grant : Granted w s t id n retry startTime lockedNodes) :
    Owns w t (update owned id (insert n (owned id))) := by
  refine ⟨grant.timely owns, ?_, ?_, ?_⟩
  · intro x
    by_cases self : x = id
    · subst x
      rw [update_self]
      exact grant.counts owns
    · rw [grant.others x self, update_of_ne self]
      exact owns.counts x
  · intro x m mem
    by_cases self : x = id
    · subst x
      rw [update_self, Finset.mem_insert] at mem
      by_cases here : m = n
      · exact .inl (here ▸ grant.kept owns)
      · exact grant.stands owns (mem.resolve_left here) (.inl here)
    · rw [update_of_ne self] at mem
      by_cases taken : m = n ∧ (w.call x).resource = (w.call id).resource
      · obtain ⟨rfl, r⟩ := taken
        exact .inr (grant.ended owns mem r)
      · exact grant.stands owns mem (by tauto)
  · intro a b m ne r inA inB
    have read : (t.phase id).readTime t.now = t.now := by rw [grant.after]; rfl
    by_cases here : m = n ∧ (a = id ∨ b = id)
    · obtain ⟨rfl, rfl | rfl⟩ := here
      · rw [update_of_ne ne.symm] at inB
        rw [read]
        exact .inr (grant.ended owns inB r.symm)
      · rw [update_of_ne ne] at inA
        rw [read]
        exact .inl (grant.ended owns inA r)
    · have old : ∀ x, m ∈ update owned id (insert n (owned id)) x →
          (x = id → m ≠ n) → m ∈ owned x := by
        intro x mem differs
        by_cases self : x = id
        · subst x
          rw [update_self, Finset.mem_insert] at mem
          exact mem.resolve_left (differs rfl)
        · rwa [update_of_ne self] at mem
      have oldA := old a inA (fun self eq => here ⟨eq, .inl self⟩)
      have oldB := old b inB (fun self eq => here ⟨eq, .inr self⟩)
      rcases owns.ordered a b m ne r oldA oldB with ended | ended
      · exact .inl (ended.extend (grant.extended a) (grant.extended b).read)
      · exact .inr (ended.extend (grant.extended b) (grant.extended a).read)

end

end AsyncPractice.Redlock
