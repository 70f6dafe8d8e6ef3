import AsyncPractice.CouchbaseBucket
import AsyncPractice.Stamps

/- Every stored document gets the next value of the counter, so the CAS value of a document tells
whether it was written since it was read, until the counter wraps around. -/
namespace AsyncPractice.Couchbase

open List GoMap Runs
open Stamps (Writes unchanged_of_stamp)

variable {D : Type} {s next : State D} {e : Event D}

/-- The counter has counted the documents that were stored. -/
def Counted (s : State D) : Prop := s.bucket.casCounter = UInt64.ofNat s.assigned.length

def State.Room (s : State D) : Prop := s.assigned.length < 2 ^ 64

theorem Counted.next_cas (cnt : Counted s) :
    s.bucket.casCounter + 1 = UInt64.ofNat (s.assigned.length + 1) := by
  rw [cnt, UInt64.ofNat_add]
  rfl

theorem Counted.moves (cnt : Counted s) (moves : Moves s e next) : Counted next := by
  cases moves with
  | get id now | refuse doc expectedCAS now failed | delete id ns fields hit visits
  | miss id ns fields absent => exact cnt
  | set doc updated made id type | swap doc now hit =>
    simpa [Counted, store] using cnt.next_cas

theorem assigned_grows (moves : Moves s e next) : s.assigned.length ≤ next.assigned.length := by
  cases moves <;> simp

theorem Counted.toNat_next (cnt : Counted s) (room : s.assigned.length + 1 < 2 ^ 64) :
    (s.bucket.casCounter + 1).toNat = s.assigned.length + 1 := by
  rw [cnt.next_cas, UInt64.toNat_ofNat']
  exact Nat.mod_eq_of_lt room

theorem Counted.writes (cnt : Counted s) (moves : Moves s e next) (room : next.Room) (id) :
    Writes (fun s : State D => s.assigned.length) (fun doc : Document D => doc.cas.toNat)
      (fun s => s.bucket.documents.lookup id) s next := by
  have stores : ∀ (stored : Document D) (assigned : List UInt64) (swapped : List (String × UInt64)),
      assigned = s.assigned ++ [s.bucket.casCounter + 1] → assigned.length < 2 ^ 64 →
      Writes (fun s : State D => s.assigned.length) (fun doc : Document D => doc.cas.toNat)
        (fun s => s.bucket.documents.lookup id) s ⟨store s.bucket stored, assigned, swapped⟩ := by
    rintro stored assigned swapped rfl room
    rw [length_append, length_singleton] at room
    refine ⟨by simp, ?_⟩
    dsimp only [store]
    rw [lookup_insert_ite]
    split
    · right
      right
      refine ⟨_, rfl, ?_⟩
      rw [cnt.toNat_next room]
      exact Nat.lt_succ_self _
    · exact .inl rfl
  cases moves with
  | get id now | refuse doc expectedCAS now failed | miss id ns fields absent =>
    exact ⟨Nat.le_refl _, .inl rfl⟩
  | set doc updated made id type => exact stores _ _ _ rfl room
  | swap doc now hit => exact stores _ _ _ rfl room
  | delete x ns fields hit visits =>
    refine ⟨Nat.le_refl _, ?_⟩
    rw [lookup_erase_ite]
    split
    · exact .inr (.inl rfl)
    · exact .inl rfl

/-- All CAS values are readings of the counter, and no document still has one that was swapped
away. -/
structure Stamped (s : State D) : Prop where
  counted : Counted s
  issued : ∀ cas ∈ s.assigned, cas.toNat ≤ s.assigned.length
  increasing : s.assigned.Pairwise (· < ·)
  stored : ∀ id doc, s.bucket.documents.lookup id = some doc → doc.cas.toNat ≤ s.assigned.length
  passed : ∀ swap ∈ s.swapped, swap.2.toNat ≤ s.assigned.length ∧
    ∀ doc, s.bucket.documents.lookup swap.1 = some doc → swap.2.toNat < doc.cas.toNat
  once : s.swapped.Nodup

theorem stamped_start : Stamped (start : State D) := by
  refine ⟨rfl, ?_, List.Pairwise.nil, ?_, ?_, nodup_nil⟩
  · intro cas mem
    cases mem
  · intro id doc hit
    cases hit
  · intro swap mem
    cases mem

theorem Stamped.store (inv : Stamped s) (room : s.assigned.length + 1 < 2 ^ 64)
    (stored : Document D) :
    Stamped { s with
      bucket := store s.bucket stored
      assigned := s.assigned ++ [s.bucket.casCounter + 1] } := by
  have next := inv.counted.toNat_next room
  have length : (s.assigned ++ [s.bucket.casCounter + 1]).length = s.assigned.length + 1 := by simp
  have found : ∀ id doc, (Couchbase.store s.bucket stored).documents.lookup id = some doc →
      doc.cas = s.bucket.casCounter + 1 ∨ s.bucket.documents.lookup id = some doc := by
    intro id doc hit
    rcases lookup_insert_cases hit with ⟨-, rfl⟩ | ⟨-, pre⟩
    · exact .inl rfl
    · exact .inr pre
  refine ⟨?_, ?_, ?_, ?_, ?_, inv.once⟩
  · rw [Counted, length]
    exact inv.counted.next_cas
  · intro cas mem
    rw [length]
    rcases mem_append.mp mem with pre | new
    · exact Nat.le_succ_of_le (inv.issued cas pre)
    · rw [mem_singleton.mp new, next]
  · rw [pairwise_append]
    refine ⟨inv.increasing, pairwise_singleton _ _, ?_⟩
    intro earlier pre new mem
    have small := inv.issued earlier pre
    rw [mem_singleton.mp mem, UInt64.lt_iff_toNat_lt, next]
    omega
  · intro id doc hit
    rw [length]
    rcases found id doc hit with new | pre
    · rw [new, next]
    · exact Nat.le_succ_of_le (inv.stored id doc pre)
  · intro swap mem
    obtain ⟨small, ok⟩ := inv.passed swap mem
    refine ⟨length ▸ Nat.le_succ_of_le small, fun doc hit => ?_⟩
    rcases found swap.1 doc hit with new | pre
    · rw [new, next]
      omega
    · exact ok doc pre

theorem Stamped.record (inv : Stamped s) {id cas} (small : cas.toNat ≤ s.assigned.length)
    (ok : ∀ doc, s.bucket.documents.lookup id = some doc → cas.toNat < doc.cas.toNat)
    (fresh : (id, cas) ∉ s.swapped) : Stamped { s with swapped := s.swapped ++ [(id, cas)] } := by
  refine ⟨inv.counted, inv.issued, inv.increasing, inv.stored, ?_, ?_⟩
  · exact forall_mem_snoc inv.passed ⟨small, ok⟩
  · rw [nodup_append]
    refine ⟨inv.once, nodup_singleton _, ?_⟩
    rintro swap pre x mem rfl
    exact fresh (mem_singleton.mp mem ▸ pre)

theorem Stamped.moves (inv : Stamped s) (moves : Moves s e next) (room : next.Room) :
    Stamped next := by
  cases moves with
  | get id now => exact inv
  | set doc updated made id type =>
    refine inv.store ?_ _
    simpa [State.Room] using room
  | @swap doc now old hit =>
    have room : s.assigned.length + 1 < 2 ^ 64 := by simpa [State.Room] using room
    have small := inv.stored doc.id old hit
    refine (inv.store room { doc with updatedAt := now }).record ?_ ?_ ?_
    · simpa using Nat.le_succ_of_le small
    · intro found stored
      rcases lookup_insert_cases stored with ⟨-, rfl⟩ | ⟨ne, -⟩
      · rw [inv.counted.toNat_next room]
        omega
      · exact absurd rfl ne
    · -- A second swap with this value would have left the document with a later one.
      intro again
      have later := (inv.passed _ again).2 old hit
      exact Nat.lt_irrefl _ later
  | refuse doc expectedCAS now failed => exact inv
  | delete id ns fields hit visits =>
    refine ⟨inv.counted, inv.issued, inv.increasing, ?_, ?_, inv.once⟩
    · intro x doc found
      exact inv.stored x doc (lookup_erase_cases found).2
    · intro swap mem
      obtain ⟨small, ok⟩ := inv.passed swap mem
      exact ⟨small, fun doc found => ok doc (lookup_erase_cases found).2⟩
  | miss id ns fields absent => exact inv

variable {events : List (Event D)} {final first : State D}

theorem along_room (run : exec step first events = some final) (room : final.Room) :
    Along step (fun s e => ∀ next, step s e = some next → next.Room) first events :=
  along_of_final (fun _ _ _ took => Nat.lt_of_le_of_lt (assigned_grows (moves_of_step took)))
    run room

theorem run_stamped (run : exec step start events = some final)
    (room : Along step (fun s e => ∀ next, step s e = some next → next.Room) start events) :
    Stamped final :=
  exec_guarded Stamped stamped_start
    (fun _ _ _ held room took => held.moves (moves_of_step took) (room _ took)) run room

theorem along_writes (cnt : Counted first)
    (room : Along step (fun s e => ∀ next, step s e = some next → next.Room) first events) (id) :
    Along step (fun s e => ∀ next, step s e = some next →
      Writes (fun s : State D => s.assigned.length) (fun doc : Document D => doc.cas.toNat)
        (fun s => s.bucket.documents.lookup id) s next) first events := by
  intro pre e after split state came next took
  have rd : Counted state := exec_invariant Counted cnt
    (fun _ _ _ held took => held.moves (moves_of_step took)) came
  exact rd.writes (moves_of_step took) (room pre e after split state came next took) id

variable {cb : CouchbaseBucket D} {now : Int} {doc : Document D}

theorem get_ok {id} (got : get cb id now = .ok doc) :
    cb.documents.lookup id = some doc ∧ doc.expired now = false := by
  unfold get at got
  split at got
  · cases got
  next stored hit =>
    split at got
    · cases got
    next live =>
      obtain rfl := Except.ok.inj got
      exact ⟨hit, Bool.eq_false_iff.mpr live⟩

theorem setWithCAS_ok {expectedCAS} (swapped : (setWithCAS cb doc expectedCAS now).2 = .ok ()) :
    ∃ old, cb.documents.lookup doc.id = some old ∧ old.cas = expectedCAS := by
  unfold setWithCAS at swapped
  split at swapped
  · cases swapped
  next old hit =>
    split at swapped
    · cases swapped
    next eq =>
      exact ⟨old, hit, not_not.mp eq⟩

/-- As long as the counter does not wrap around: the CAS values of the stored documents increase,
no two SetWithCAS calls go through with the same id and expected value, and when one goes through
with the value that a Get has returned, the document of that id was the same in between. -/
theorem compare_and_swap_one_winner (run : exec step start events = some final)
    (room : final.Room) :
    final.assigned.Pairwise (· < ·) ∧ final.swapped.Nodup ∧
    ∀ before middle after id now doc new swapTime reading swapping,
      events = before ++ (.get id now :: middle) ++ .setWithCAS new doc.cas swapTime :: after →
      exec step start before = some reading → get reading.bucket id now = .ok doc → new.id = id →
      exec step reading (.get id now :: middle) = some swapping →
      (setWithCAS swapping.bucket new doc.cas swapTime).2 = .ok () →
      Throughout step (fun s => s.bucket.documents.lookup id = some doc) reading
        (.get id now :: middle) := by
  have enough := along_room run room
  have stamped := run_stamped run enough
  refine ⟨stamped.increasing, stamped.once, ?_⟩
  intro before middle after id now doc new swapTime reading swapping split reached got same between
    swapped
  subst split same
  rw [append_assoc] at enough
  have read := run_stamped reached enough.initial
  obtain ⟨held, -⟩ := get_ok got
  obtain ⟨existing, present, unswapped⟩ := setWithCAS_ok swapped
  exact unchanged_of_stamp between
    (along_writes read.counted (enough.rest reached).initial new.id) held
    (read.stored new.id doc held) present (congrArg UInt64.toNat unswapped)

def document (id : String) (data : Nat) : Document Nat := ⟨id, "user", data, 0, 0, 0, none⟩

def twoReaders : List (Event Nat) :=
  [.set (document "a" 1) 0 0, .get "a" 1, .get "a" 1, .setWithCAS (document "a" 2) 1 2,
    .setWithCAS (document "a" 3) 1 3]

theorem second_reader_refused :
    ∃ final, exec step start twoReaders = some final ∧ final.assigned = [1, 2] ∧
      final.swapped = [("a", 1)] ∧ final.assigned.Pairwise (· < ·) ∧ final.swapped.Nodup := by
  refine exists_exec (fun s => s.assigned = [1, 2] ∧ s.swapped = [("a", 1)]) (by decide) ?_
  intro final run ⟨assigned, swapped⟩
  have room : final.Room := by
    rw [State.Room, assigned]
    decide
  obtain ⟨increasing, once, -⟩ := compare_and_swap_one_winner run room
  exact ⟨assigned, swapped, increasing, once⟩

theorem step_set (s) (doc : Document D) (updated created) :
    ∃ next, step s (.set doc updated created) = some next ∧
      next.bucket.casCounter = s.bucket.casCounter + 1 ∧
      next.assigned = s.assigned ++ [s.bucket.casCounter + 1] := by
  obtain ⟨stored, -, -, eq⟩ := set_eq_store s.bucket doc updated created
  refine ⟨_, rfl, ?_, ?_⟩
  · rw [eq]
    rfl
  · rw [eq]
    rfl

theorem exec_sets (doc : Document D) (n) :
    ∃ s, exec step start (List.replicate n (.set doc 0 0)) = some s ∧
      s.bucket.casCounter = UInt64.ofNat n ∧ (0 < n → 1 ∈ s.assigned) := by
  induction n with
  | zero => exact ⟨_, rfl, rfl, fun pos => absurd pos (by decide)⟩
  | succ n ih =>
    obtain ⟨s, run, counter, first⟩ := ih
    obtain ⟨next, took, after, assigned⟩ := step_set s doc 0 0
    have cnt : s.bucket.casCounter + 1 = UInt64.ofNat (n + 1) := by
      rw [counter, UInt64.ofNat_add]
      rfl
    refine ⟨next, ?_, after.trans cnt, fun _ => ?_⟩
    · rw [replicate_succ']
      exact exec_snoc_some.mpr ⟨s, run, took⟩
    · rw [assigned, cnt]
      cases n with
      | zero => exact mem_append_right _ (mem_singleton_self _)
      | succ n => exact mem_append_left _ (first (Nat.succ_pos n))

/-- The 2 ^ 64th document is stored with the CAS value 0. -/
theorem cas_wraps_around :
    ∃ s : State Nat,
      exec step start (List.replicate (2 ^ 64) (.set (document "a" 1) 0 0)) = some s ∧
      ¬ s.assigned.Pairwise (· < ·) := by
  obtain ⟨s, run, counter, first⟩ := exec_sets (document "a" 1) (2 ^ 64 - 1)
  obtain ⟨next, stepped, -, assigned⟩ := step_set s (document "a" 1) 0 0
  refine ⟨next, ?_, fun increasing => ?_⟩
  · rw [show (2 : Nat) ^ 64 = (2 ^ 64 - 1) + 1 by decide, replicate_succ']
    exact exec_snoc_some.mpr ⟨s, run, stepped⟩
  · rw [assigned, pairwise_append] at increasing
    have later := increasing.2.2 1 (first (by decide)) _ (mem_singleton_self _)
    rw [counter] at later
    exact absurd later (by decide)

end AsyncPractice.Couchbase
