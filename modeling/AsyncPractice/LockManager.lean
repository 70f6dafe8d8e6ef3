import AsyncPractice.GoMap
import AsyncPractice.Runs

/- The lock manager of challenge31_distributed_transaction.go. AcquireLock and ReleaseLocks each
hold its mutex from the first line to the last. -/
namespace AsyncPractice.LockManager

open List
open Runs (exec exec_invariant exists_exec)

inductive LockType
  | shared
  | exclusive
  deriving DecidableEq

structure Lock where
  txnID : UInt64
  resource : String
  type : LockType
  timestamp : Int
  deriving DecidableEq

structure Manager where
  locks : GoMap String (List Lock)

def newLockManager : Manager := ⟨∅⟩

/-- A resource that is not in the table has no locks. -/
def Manager.held (lm : Manager) (resource : String) : List Lock :=
  (lm.locks.lookup resource).getD []

def Lock.conflicts (txnID : UInt64) (lockType : LockType) (lock : Lock) : Bool :=
  (lock.type = .exclusive || lockType = .exclusive) && lock.txnID ≠ txnID

def acquireLock (lm : Manager) (txnID : UInt64) (resource : String) (lockType : LockType)
    (now : Int) : Manager × Except String Unit :=
  let existingLocks := lm.held resource
  if existingLocks.any (Lock.conflicts txnID lockType) then
    (lm, .error ("lock conflict on " ++ resource))
  else
    (⟨lm.locks.insert resource (lm.held resource ++ [⟨txnID, resource, lockType, now⟩])⟩, .ok ())

/-- `order` is the order of the loop over the table. -/
def releaseLocks (lm : Manager) (txnID : UInt64) (order : List String) : Manager :=
  ⟨GoMap.rangeUpdate (fun locks => locks.filter (·.txnID ≠ txnID)) order lm.locks⟩

inductive Call
  | acquire (txnID : UInt64) (resource : String) (lockType : LockType) (now : Int)
  | release (txnID : UInt64) (order : List String)

def step (lm : Manager) : Call → Option Manager
  | .acquire txnID resource lockType now => some (acquireLock lm txnID resource lockType now).1
  | .release txnID order =>
    if GoMap.Ranges order lm.locks then some (releaseLocks lm txnID order) else none

/-- Two locks that may be held on one resource at a time. -/
def Lock.Compatible (first second : Lock) : Prop :=
  first.txnID ≠ second.txnID → first.type = .shared ∧ second.type = .shared

def Manager.Compatible (lm : Manager) : Prop :=
  ∀ resource, ∀ first ∈ lm.held resource, ∀ second ∈ lm.held resource, first.Compatible second

variable {lm : Manager} {txnID : UInt64} {r : String} {lockType : LockType} {now : Int}
  {order : List String}

theorem Lock.Compatible.symm {x y : Lock} (compatible : x.Compatible y) : y.Compatible x :=
  fun ne => (compatible ne.symm).symm

theorem compatible_of_not_conflicts {lock : Lock} (free : lock.conflicts txnID lockType = false) :
    lock.Compatible ⟨txnID, r, lockType, now⟩ := by
  intro ne
  have compatible : lock.type ≠ .exclusive ∧ lockType ≠ .exclusive := by
    simpa [Lock.conflicts, ne] using free
  constructor
  · cases held : lock.type with
    | shared => rfl
    | exclusive => exact absurd held compatible.1
  · cases lockType with
    | shared => rfl
    | exclusive => exact absurd rfl compatible.2

theorem acquireLock_cases (lm txnID r lockType now) :
    acquireLock lm txnID r lockType now = (lm, .error ("lock conflict on " ++ r)) ∨
      (∀ lock ∈ lm.held r, lock.conflicts txnID lockType = false) ∧
        acquireLock lm txnID r lockType now =
          (⟨lm.locks.insert r (lm.held r ++ [⟨txnID, r, lockType, now⟩])⟩, .ok ()) := by
  unfold acquireLock
  by_cases conflict : (lm.held r).any (Lock.conflicts txnID lockType) = true
  · left
    rw [if_pos conflict]
  · right
    rw [if_neg conflict]
    refine ⟨?_, rfl⟩
    simpa using conflict

theorem acquireLock_error {err} (failed : (acquireLock lm txnID r lockType now).2 = .error err) :
    (acquireLock lm txnID r lockType now).1 = lm := by
  rcases acquireLock_cases lm txnID r lockType now with refused | ⟨-, granted⟩
  · rw [refused]
  · rw [granted] at failed
    cases failed

theorem held_insert (locks other) :
    Manager.held ⟨lm.locks.insert r locks⟩ other = if other = r then locks else lm.held other := by
  unfold Manager.held
  rw [GoMap.lookup_insert_ite]
  split <;> rfl

theorem held_releaseLocks (ranges : GoMap.Ranges order lm.locks) (r) :
    (releaseLocks lm txnID order).held r = (lm.held r).filter (·.txnID ≠ txnID) := by
  unfold Manager.held releaseLocks
  rw [ranges.lookup_rangeUpdate]
  cases lm.locks.lookup r <;> rfl

theorem Manager.Compatible.acquire (compatible : lm.Compatible) :
    (acquireLock lm txnID r lockType now).1.Compatible := by
  rcases acquireLock_cases lm txnID r lockType now with refused | ⟨free, granted⟩
  · rw [refused]
    exact compatible
  · rw [granted]
    intro other x heldFirst y heldSecond
    rw [held_insert] at heldFirst heldSecond
    split at heldFirst
    next here =>
      rw [if_pos here] at heldSecond
      rcases mem_append.mp heldFirst with oldFirst | newFirst
      · rcases mem_append.mp heldSecond with oldSecond | newSecond
        · exact compatible r x oldFirst y oldSecond
        · rw [List.mem_singleton.mp newSecond]
          exact compatible_of_not_conflicts (free x oldFirst)
      · rw [List.mem_singleton.mp newFirst]
        rcases mem_append.mp heldSecond with oldSecond | newSecond
        · exact (compatible_of_not_conflicts (free y oldSecond)).symm
        · rw [List.mem_singleton.mp newSecond]
          intro ne
          exact absurd rfl ne
    next elsewhere =>
      rw [if_neg elsewhere] at heldSecond
      exact compatible other x heldFirst y heldSecond

theorem Manager.Compatible.release (compatible : lm.Compatible)
    (ranges : GoMap.Ranges order lm.locks) : (releaseLocks lm txnID order).Compatible := by
  intro r x heldFirst y heldSecond
  rw [held_releaseLocks ranges] at heldFirst heldSecond
  exact compatible r x (mem_of_mem_filter heldFirst) y (mem_of_mem_filter heldSecond)

theorem Manager.Compatible.call {t c} (compatible : lm.Compatible) (took : step lm c = some t) :
    t.Compatible := by
  cases c with
  | acquire txnID r lockType now =>
    cases took
    exact compatible.acquire
  | release txnID order =>
    obtain ⟨ranges, rfl⟩ := Runs.guard_some.mp took
    exact compatible.release ranges

theorem newLockManager_compatible : newLockManager.Compatible := by
  intro r x held
  simp [Manager.held, newLockManager] at held

/-- After any calls, locks of different transactions on one resource are all shared, and a call of
AcquireLock that returns an error changes nothing. -/
theorem grants_compatible_locks {calls : List Call} {lm : Manager}
    (run : exec step newLockManager calls = some lm) :
    (∀ resource, ∀ first ∈ lm.held resource, ∀ second ∈ lm.held resource,
        first.txnID ≠ second.txnID → first.type = .shared ∧ second.type = .shared) ∧
      ∀ txnID resource lockType now err,
        (acquireLock lm txnID resource lockType now).2 = .error err →
          (acquireLock lm txnID resource lockType now).1 = lm := by
  constructor
  · exact exec_invariant Manager.Compatible newLockManager_compatible
      (fun _ _ _ held stepped => held.call stepped) run
  · intro txnID resource lockType now err failed
    exact acquireLock_error failed

/-- A shared lock is upgraded once the other reader has released its own. -/
theorem upgrade_after_release :
    ∃ lm, exec step newLockManager
        [.acquire 1 "a" .shared 0, .acquire 2 "a" .shared 1, .acquire 1 "a" .exclusive 2,
          .release 2 ["a"], .acquire 1 "a" .exclusive 3, .acquire 2 "a" .shared 4] = some lm ∧
      lm.held "a" = [⟨1, "a", .shared, 0⟩, ⟨1, "a", .exclusive, 3⟩] ∧
      ∀ first ∈ lm.held "a", ∀ second ∈ lm.held "a",
        first.txnID ≠ second.txnID → first.type = .shared ∧ second.type = .shared := by
  refine exists_exec (fun lm => lm.held "a" = [⟨1, "a", .shared, 0⟩, ⟨1, "a", .exclusive, 3⟩])
    (by decide) fun lm run held => ?_
  exact ⟨held, (grants_compatible_locks run).1 "a"⟩

end AsyncPractice.LockManager
