import AsyncPractice.Pool

/- Read-write locks, and a pool of processes that hold them. A process that waits for the write
lock does not keep readers out here, which only allows more runs. The module knows nothing about any
particular system. -/
namespace AsyncPractice

open Option List Function

structure RWMutex where
  writer : Bool
  readers : Nat

namespace RWMutex

inductive Mode
  | read
  | write
  deriving DecidableEq

def free : RWMutex := ⟨false, 0⟩

def acquire (m : RWMutex) : Mode → Option RWMutex
  | .read => if m.writer = false then some { m with readers := m.readers + 1 } else none
  | .write => if m.writer = false ∧ m.readers = 0 then some { m with writer := true } else none

def release (m : RWMutex) : Mode → Option RWMutex
  | .read => if 0 < m.readers then some { m with readers := m.readers - 1 } else none
  | .write => if m.writer = true then some { m with writer := false } else none

/-- The lock is held by as many writers and readers. -/
structure Counts (m : RWMutex) (held : Mode → Nat) : Prop where
  writers : held .write = if m.writer then 1 else 0
  readers : held .read = m.readers
  exclusive : m.writer = true → m.readers = 0

variable {m t : RWMutex} {held : Mode → Nat} {mode : Mode}

theorem counts_free : Counts free fun _ => 0 := ⟨rfl, rfl, fun _ => rfl⟩

theorem Counts.acquire (counts : Counts m held) (got : m.acquire mode = some t) :
    Counts t (update held mode (held mode + 1)) := by
  cases mode with
  | read =>
    obtain ⟨unwritten, got⟩ := ite_none_right_eq_some.mp got
    cases got
    refine ⟨counts.writers, congrArg (· + 1) counts.readers, fun wrote => ?_⟩
    rw [unwritten] at wrote
    cases wrote
  | write =>
    obtain ⟨⟨unwritten, unread⟩, got⟩ := ite_none_right_eq_some.mp got
    cases got
    refine ⟨?_, counts.readers, fun _ => unread⟩
    rw [update_self, counts.writers, unwritten]
    rfl

theorem Counts.release (counts : Counts m held) (left : m.release mode = some t) :
    Counts t (update held mode (held mode - 1)) := by
  cases mode with
  | read =>
    obtain ⟨rd, left⟩ := ite_none_right_eq_some.mp left
    cases left
    refine ⟨counts.writers, congrArg (· - 1) counts.readers, fun wrote => ?_⟩
    have unread := counts.exclusive wrote
    omega
  | write =>
    obtain ⟨wrote, left⟩ := ite_none_right_eq_some.mp left
    cases left
    refine ⟨?_, counts.readers, fun again => by cases again⟩
    rw [update_self, counts.writers, wrote]
    rfl

theorem release_of_acquire (got : m.acquire mode = some t) : t.release mode = some m := by
  cases mode with
  | read =>
    obtain ⟨-, got⟩ := ite_none_right_eq_some.mp got
    cases got
    simp only [release, Nat.succ_pos, if_true, Nat.add_sub_cancel]
  | write =>
    obtain ⟨⟨unwritten, -⟩, got⟩ := ite_none_right_eq_some.mp got
    cases got
    show some { m with writer := false } = some m
    rw [← unwritten]

section

variable {α κ : Type} [DecidableEq κ] {held : α → List (κ × Mode)} {locks : κ → RWMutex}
  {pool started : List α} {i : Nat} {old new : α}

def holders (held : α → List (κ × Mode)) (pool : List α) (k : κ) (mode : Mode) : Nat :=
  pool.countP fun process => decide ((k, mode) ∈ held process)

/-- Every lock is held by the processes of the pool as its own fields say. -/
def Accounts (held : α → List (κ × Mode)) (locks : κ → RWMutex) (pool : List α) : Prop :=
  ∀ k, Counts (locks k) (holders held pool k)

theorem accounts_nil : Accounts held (fun _ => free) [] := fun _ => counts_free

theorem holders_idle (idle : ∀ p ∈ started, held p = []) (k mode) :
    holders held started k mode = 0 := by
  refine countP_eq_zero.mpr fun p mem => ?_
  simp [idle p mem]

theorem Accounts.begin (inv : Accounts held locks pool)
    (idle : ∀ process ∈ started, held process = []) : Accounts held locks (pool ++ started) := by
  intro k
  have cnt : holders held (pool ++ started) k = holders held pool k := by
    funext mode
    have none_started := holders_idle idle k mode
    unfold holders at *
    rw [countP_append, none_started, Nat.add_zero]
  rw [cnt]
  exact inv k

theorem holders_moved (here : pool[i]? = some old) (new)
    (idle : ∀ p ∈ started, held p = []) (k mode) :
    holders held (pool.set i new ++ started) k mode + (if (k, mode) ∈ held old then 1 else 0) =
      holders held pool k mode + if (k, mode) ∈ held new then 1 else 0 := by
  have moved := Pool.countP_moved here new started fun p => decide ((k, mode) ∈ held p)
  have none_started := holders_idle idle k mode
  unfold holders at *
  rw [none_started, Nat.add_zero] at moved
  simpa only [decide_eq_true_eq] using moved

theorem Accounts.keep (inv : Accounts held locks pool) (here : pool[i]? = some old)
    (eq : held new = held old) (idle : ∀ process ∈ started, held process = []) :
    Accounts held locks (pool.set i new ++ started) := by
  intro k
  have cnt : holders held (pool.set i new ++ started) k = holders held pool k := by
    funext mode
    have moved := holders_moved here new idle k mode
    rw [eq] at moved
    omega
  rw [cnt]
  exact inv k

variable {k : κ} {writer : α}

theorem Accounts.acquire (inv : Accounts held locks pool) (here : pool[i]? = some old)
    (gains : held new = (k, mode) :: held old) (lacked : (k, mode) ∉ held old)
    (idle : ∀ process ∈ started, held process = []) (got : (locks k).acquire mode = some t) :
    Accounts held (update locks k t) (pool.set i new ++ started) := by
  intro l
  have moved := holders_moved here new idle l
  simp only [gains, mem_cons, Prod.mk.injEq] at moved
  by_cases same : l = k
  · subst same
    have cnt : holders held (pool.set i new ++ started) l =
        update (holders held pool l) mode (holders held pool l mode + 1) := by
      funext other
      have moved := moved other
      by_cases own : other = mode
      · subst own
        simpa [lacked] using moved
      · simpa [own] using moved
    rw [cnt, update_self]
    exact (inv l).acquire got
  · have cnt : holders held (pool.set i new ++ started) l = holders held pool l := by
      funext other
      simpa [same] using moved other
    rw [cnt, update_of_ne same]
    exact inv l

theorem Accounts.release (inv : Accounts held locks pool) (here : pool[i]? = some old)
    (loses : held old = (k, mode) :: held new) (lacks : (k, mode) ∉ held new)
    (idle : ∀ process ∈ started, held process = []) (left : (locks k).release mode = some t) :
    Accounts held (update locks k t) (pool.set i new ++ started) := by
  intro l
  have moved := holders_moved here new idle l
  simp only [loses, mem_cons, Prod.mk.injEq] at moved
  by_cases same : l = k
  · subst same
    have cnt : holders held (pool.set i new ++ started) l =
        update (holders held pool l) mode (holders held pool l mode - 1) := by
      funext other
      have moved := moved other
      by_cases own : other = mode
      · subst own
        rw [update_self]
        simp only [true_and, true_or, if_true, if_neg lacks] at moved
        omega
      · simpa [own] using moved
    rw [cnt, update_self]
    exact (inv l).release left
  · have cnt : holders held (pool.set i new ++ started) l = holders held pool l := by
      funext other
      simpa [same] using moved other
    rw [cnt, update_of_ne same]
    exact inv l

variable (inv : Accounts held locks pool)
include inv

theorem Accounts.written (ws : writer ∈ pool) (writing : (k, .write) ∈ held writer) :
    (locks k).writer = true := by
  have some_writes : 0 < holders held pool k .write :=
    countP_pos_iff.mpr ⟨writer, ws, decide_eq_true writing⟩
  rw [(inv k).writers] at some_writes
  by_contra unwritten
  simp [unwritten] at some_writes

/-- Nobody gets a lock that is held for writing. -/
theorem Accounts.blocked (ws : writer ∈ pool) (writing : (k, .write) ∈ held writer) (mode) :
    (locks k).acquire mode = none := by
  have wrote := inv.written ws writing
  cases mode <;> simp [RWMutex.acquire, wrote]

/-- Who holds a lock for writing holds it alone. -/
theorem Accounts.excludes {reader} (reads : reader ∈ pool) (rd : (k, .read) ∈ held reader)
    (ws : writer ∈ pool) (writing : (k, .write) ∈ held writer) : False := by
  have some_reads : 0 < holders held pool k .read :=
    countP_pos_iff.mpr ⟨reader, reads, decide_eq_true rd⟩
  have unread := (inv k).exclusive (inv.written ws writing)
  rw [(inv k).readers] at some_reads
  omega

end

end RWMutex

end AsyncPractice
