import AsyncPractice.GoMap
import AsyncPractice.Runs
import Mathlib.Data.Fintype.Basic

/- solution1_TwoPhaseCommit of challenge12_solution.go. Every goroutine that works on a participant
is one step, taken under the participant's mutex; the calls of executeTx run side by side. -/
namespace AsyncPractice.TwoPhaseCommit

section

open Option

/-- With the one key of its Data. -/
structure Transaction (V : Type) where
  id : String
  key : String
  value : V

structure Participant (V : Type) where
  data : GoMap String V
  prepared : GoMap String (Transaction V)
  versions : GoMap String Int64

section

variable {V : Type}

/-- Also returns the vote, which is always yes. -/
def Participant.prepare (participant : Participant V) (tx : Transaction V) : Participant V × Bool :=
  ({ participant with prepared := participant.prepared.insert tx.id tx }, true)

def Participant.commit (participant : Participant V) (txID : String) : Participant V :=
  match participant.prepared.lookup txID with
  | none => participant
  | some tx =>
    { data := participant.data.insert tx.key tx.value
      prepared := participant.prepared.erase txID
      versions := participant.versions.insert tx.key
        ((participant.versions.lookup tx.key).getD 0 + 1) }

def Participant.rollback (participant : Participant V) (txID : String) : Participant V :=
  { participant with prepared := participant.prepared.erase txID }

end

/-- Where a call of executeTx stands: the participants whose goroutines are done, and in the
first phase whether all votes so far were yes. The goroutines that abort starts outlive the
call. -/
inductive Phase (P V : Type)
  | idle
  | preparing (tx : Transaction V) (voted : Finset P) (allVotesYes : Bool)
  | committing (tx : Transaction V) (committed : Finset P)
  | aborting (tx : Transaction V) (rolledBack : Finset P)
  | aborted (tx : Transaction V) (notified : Finset P)
  | finished

/-- The transaction whose id the call may still use. -/
def Phase.tx {P V : Type} : Phase P V → Option (Transaction V)
  | preparing tx _ _ => some tx
  | committing tx _ => some tx
  | aborting tx _ => some tx
  | aborted tx _ => some tx
  | idle => none
  | finished => none

def Phase.returned {P V : Type} : Phase P V → Bool
  | idle => true
  | aborted _ _ => true
  | finished => true
  | _ => false

/-- The participants `P` of the coordinator and the calls `T` of executeTx. -/
structure State (P T V : Type) where
  participants : P → Participant V
  phase : T → Phase P V

inductive Event (P T V : Type)
  | start (t : T) (tx : Transaction V)
  | prepare (t : T) (p : P)
  | decide (t : T)
  | commit (t : T) (p : P)
  | finish (t : T)
  | rollback (t : T) (p : P)
  | giveUp (t : T)
  | notify (t : T) (p : P)

variable {P T V : Type} [DecidableEq P] [Fintype P] [DecidableEq T]

def init (P T : Type) {V : Type} (data : GoMap String V) : State P T V :=
  ⟨fun _ => ⟨data, ∅, ∅⟩, fun _ => .idle⟩

def State.enter (s : State P T V) (t : T) (phase : Phase P V) : State P T V :=
  { s with phase := Function.update s.phase t phase }

def State.setParticipant (s : State P T V) (p : P) (participant : Participant V) : State P T V :=
  { s with participants := Function.update s.participants p participant }

/-- The appends to `rollbacks` race with one another, so some of the rollbacks may be missing
when the call gives up. -/
def step (s : State P T V) : Event P T V → Option (State P T V)
  | .start t tx =>
    match s.phase t with
    | .idle => some (s.enter t (.preparing tx ∅ true))
    | _ => none
  | .prepare t p =>
    match s.phase t with
    | .preparing tx voted allVotesYes =>
      if p ∈ voted then none
      else
        let (participant, vote) := (s.participants p).prepare tx
        some ((s.setParticipant p participant).enter t
          (.preparing tx (insert p voted) (allVotesYes && vote)))
    | _ => none
  | .decide t =>
    match s.phase t with
    | .preparing tx voted allVotesYes =>
      if voted = Finset.univ then
        some (s.enter t (if allVotesYes then .committing tx ∅ else .aborting tx ∅))
      else none
    | _ => none
  | .commit t p =>
    match s.phase t with
    | .committing tx committed =>
      if p ∈ committed then none
      else
        some ((s.setParticipant p ((s.participants p).commit tx.id)).enter t
          (.committing tx (insert p committed)))
    | _ => none
  | .finish t =>
    match s.phase t with
    | .committing _ committed =>
      if committed = Finset.univ then some (s.enter t .finished) else none
    | _ => none
  | .rollback t p =>
    match s.phase t with
    | .aborting tx rolledBack =>
      if p ∈ rolledBack then none
      else
        some ((s.setParticipant p ((s.participants p).rollback tx.id)).enter t
          (.aborting tx (insert p rolledBack)))
    | _ => none
  | .giveUp t =>
    match s.phase t with
    | .aborting tx _ => some (s.enter t (.aborted tx ∅))
    | _ => none
  | .notify t p =>
    match s.phase t with
    | .aborted tx notified =>
      if p ∈ notified then none
      else
        some ((s.setParticipant p ((s.participants p).rollback tx.id)).enter t
          (.aborted tx (insert p notified)))
    | _ => none

inductive Moves (s : State P T V) : Event P T V → State P T V → Prop
  | start {t : T} (tx : Transaction V) (idle : s.phase t = .idle) :
      Moves s (.start t tx) (s.enter t (.preparing tx ∅ true))
  | prepare {t : T} {p : P} {tx : Transaction V} {voted : Finset P} {yes : Bool}
      (phase : s.phase t = .preparing tx voted yes) (new : p ∉ voted) :
      Moves s (.prepare t p) ((s.setParticipant p ((s.participants p).prepare tx).1).enter t
        (.preparing tx (insert p voted) (yes && true)))
  | decideCommit {t : T} {tx : Transaction V} {voted : Finset P}
      (phase : s.phase t = .preparing tx voted true) (all : voted = Finset.univ) :
      Moves s (.decide t) (s.enter t (.committing tx ∅))
  | decideAbort {t : T} {tx : Transaction V} {voted : Finset P}
      (phase : s.phase t = .preparing tx voted false) (all : voted = Finset.univ) :
      Moves s (.decide t) (s.enter t (.aborting tx ∅))
  | commit {t : T} {p : P} {tx : Transaction V} {committed : Finset P}
      (phase : s.phase t = .committing tx committed) (new : p ∉ committed) :
      Moves s (.commit t p) ((s.setParticipant p ((s.participants p).commit tx.id)).enter t
        (.committing tx (insert p committed)))
  | finish {t : T} {tx : Transaction V} {committed : Finset P}
      (phase : s.phase t = .committing tx committed) (all : committed = Finset.univ) :
      Moves s (.finish t) (s.enter t .finished)
  | rollback {t : T} {p : P} {tx : Transaction V} {rolledBack : Finset P}
      (phase : s.phase t = .aborting tx rolledBack) (new : p ∉ rolledBack) :
      Moves s (.rollback t p) ((s.setParticipant p ((s.participants p).rollback tx.id)).enter t
        (.aborting tx (insert p rolledBack)))
  | giveUp {t : T} {tx : Transaction V} {rolledBack : Finset P}
      (phase : s.phase t = .aborting tx rolledBack) :
      Moves s (.giveUp t) (s.enter t (.aborted tx ∅))
  | notify {t : T} {p : P} {tx : Transaction V} {notified : Finset P}
      (phase : s.phase t = .aborted tx notified) (new : p ∉ notified) :
      Moves s (.notify t p) ((s.setParticipant p ((s.participants p).rollback tx.id)).enter t
        (.aborted tx (insert p notified)))

theorem moves_of_step {s next : State P T V} {e : Event P T V} (took : step s e = some next) :
    Moves s e next := by
  cases e with
  | start t tx =>
    simp only [step] at took
    split at took
    next idle =>
      exact some.inj took ▸ .start tx idle
    · cases took
  | prepare t p =>
    simp only [step] at took
    split at took
    next tx voted yes phase =>
      obtain ⟨new, moved⟩ := ite_none_left_eq_some.mp took
      exact some.inj moved ▸ .prepare phase new
    · cases took
  | decide t =>
    simp only [step] at took
    split at took
    next tx voted yes phase =>
      obtain ⟨all, moved⟩ := ite_none_right_eq_some.mp took
      cases yes with
      | true => exact some.inj moved ▸ .decideCommit phase all
      | false => exact some.inj moved ▸ .decideAbort phase all
    · cases took
  | commit t p =>
    simp only [step] at took
    split at took
    next tx committed phase =>
      obtain ⟨new, moved⟩ := ite_none_left_eq_some.mp took
      exact some.inj moved ▸ .commit phase new
    · cases took
  | finish t =>
    simp only [step] at took
    split at took
    next tx committed phase =>
      obtain ⟨all, moved⟩ := ite_none_right_eq_some.mp took
      exact some.inj moved ▸ .finish phase all
    · cases took
  | rollback t p =>
    simp only [step] at took
    split at took
    next tx rolledBack phase =>
      obtain ⟨new, moved⟩ := ite_none_left_eq_some.mp took
      exact some.inj moved ▸ .rollback phase new
    · cases took
  | giveUp t =>
    simp only [step] at took
    split at took
    next tx rolledBack phase =>
      exact some.inj took ▸ .giveUp phase
    · cases took
  | notify t p =>
    simp only [step] at took
    split at took
    next tx notified phase =>
      obtain ⟨new, moved⟩ := ite_none_left_eq_some.mp took
      exact some.inj moved ▸ .notify phase new
    · cases took

end

open Runs

variable {P T V : Type}

section

variable [DecidableEq P] {s : State P T V} {p : P} {tx : Transaction V}

theorem participants_setParticipant (participant q) :
    (s.setParticipant p participant).participants q =
      if q = p then participant else s.participants q :=
  Function.update_apply ..

theorem phase_setParticipant (participant) : (s.setParticipant p participant).phase = s.phase :=
  rfl

theorem lookup_prepared_prepare (q id) :
    ((s.setParticipant p ((s.participants p).prepare tx).1).participants q).prepared.lookup id =
      if q = p ∧ id = tx.id then some tx else (s.participants q).prepared.lookup id := by
  rw [participants_setParticipant]
  by_cases same : q = p
  · subst same
    rw [if_pos rfl, Participant.prepare, GoMap.lookup_insert_ite]
    simp
  · simp [same]

theorem data_prepare (q) :
    ((s.setParticipant p ((s.participants p).prepare tx).1).participants q).data =
      (s.participants q).data := by
  rw [participants_setParticipant]
  split
  next eq =>
    rw [eq]
    rfl
  · rfl

variable (hit : (s.participants p).prepared.lookup tx.id = some tx)
include hit

theorem lookup_prepared_commit {q id} (ne : q ≠ p ∨ id ≠ tx.id) :
    ((s.setParticipant p ((s.participants p).commit tx.id)).participants q).prepared.lookup id =
      (s.participants q).prepared.lookup id := by
  rw [participants_setParticipant]
  split
  next eq =>
    subst eq
    simp only [Participant.commit, hit]
    exact Finmap.lookup_erase_ne (ne.resolve_left (not_not_intro rfl))
  · rfl

theorem lookup_data_commit (q k) :
    ((s.setParticipant p ((s.participants p).commit tx.id)).participants q).data.lookup k =
      if q = p ∧ k = tx.key then some tx.value else (s.participants q).data.lookup k := by
  rw [participants_setParticipant]
  by_cases same : q = p
  · subst same
    simp only [Participant.commit, hit, if_pos, true_and]
    exact GoMap.lookup_insert_ite ..
  · simp [same]

end

/-- What the participants know of a call: those that voted hold it prepared until they commit it,
and its value from then on. No call is ever aborted. -/
def Phase.Sound (participants : P → Participant V) : Phase P V → Prop
  | idle => True
  | preparing tx voted allVotesYes => allVotesYes = true ∧
      ∀ p ∈ voted, (participants p).prepared.lookup tx.id = some tx
  | committing tx committed =>
    (∀ p ∉ committed, (participants p).prepared.lookup tx.id = some tx) ∧
    ∀ p ∈ committed, (participants p).data.lookup tx.key = some tx.value
  | aborting _ _ => False
  | aborted _ _ => False
  | finished => True

/-- The key and the value that a call may be about to write. -/
def Phase.writing : Phase P V → Option (String × V)
  | committing tx _ => some (tx.key, tx.value)
  | _ => none

/-- Two calls that do not get in each other's way. -/
structure Phase.Apart (first second : Phase P V) : Prop where
  ids : ∀ tx tx', first.tx = some tx → second.tx = some tx' → tx.id ≠ tx'.id
  values : ∀ key value value', first.writing = some (key, value) →
    second.writing = some (key, value') → value = value'

theorem Phase.Apart.symm {x y : Phase P V} (ne : x.Apart y) : y.Apart x :=
  ⟨fun tx tx' left right => (ne.ids tx' tx right left).symm,
    fun k v value' left right => (ne.values k value' v right left).symm⟩

/-- `agreed` is the store the participants share: each of them differs from it only where some
call is writing, and there by the value that call writes. -/
structure Agrees (s : State P T V) (agreed : GoMap String V) : Prop where
  sound : ∀ t, (s.phase t).Sound s.participants
  apart : ∀ t t', t ≠ t' → (s.phase t).Apart (s.phase t')
  held : ∀ p key, (s.participants p).data.lookup key = agreed.lookup key ∨
    ∃ t value, (s.phase t).writing = some (key, value) ∧
      (s.participants p).data.lookup key = some value

theorem init_agrees (data : GoMap String V) : Agrees (init P T data) data := by
  constructor
  · intro t
    trivial
  · intro t t' _
    constructor
    · intro tx tx' active
      cases active
    · intro k v value' writing
      cases writing
  · intro p k
    exact .inl rfl

variable {s : State P T V} {agreed : GoMap String V}

theorem Agrees.data_eq (inv : Agrees s agreed) (ret : ∀ t, (s.phase t).returned = true)
    (p) : (s.participants p).data = agreed := by
  apply Finmap.ext_lookup
  intro k
  rcases inv.held p k with same | ⟨t, v, writing, -⟩
  · exact same
  · have done := ret t
    cases phase : s.phase t <;> rw [phase] at done writing <;> cases done <;> cases writing

theorem Phase.Sound.frame {participants participants' : P → Participant V} {phase : Phase P V}
    (inv : phase.Sound participants)
    (prepared : ∀ tx, phase.tx = some tx → ∀ p,
      (participants' p).prepared.lookup tx.id = (participants p).prepared.lookup tx.id)
    (data : ∀ key value, phase.writing = some (key, value) → ∀ p,
      (participants p).data.lookup key = some value →
      (participants' p).data.lookup key = some value) : phase.Sound participants' := by
  cases phase with
  | preparing tx voted yes =>
    refine ⟨inv.1, fun p mem => ?_⟩
    rw [prepared tx rfl p]
    exact inv.2 p mem
  | committing tx committed =>
    refine ⟨fun p mem => ?_, fun p mem => ?_⟩
    · rw [prepared tx rfl p]
      exact inv.1 p mem
    · exact data tx.key tx.value rfl p (inv.2 p mem)
  | idle => trivial
  | finished => trivial
  | aborting tx rolledBack => exact inv
  | aborted tx notified => exact inv

section

variable [DecidableEq T] {s : State P T V} {t : T} {phase : Phase P V}

theorem phase_enter_self : (s.enter t phase).phase t = phase :=
  Function.update_self ..

theorem phase_enter_ne {t'} (other : t' ≠ t) : (s.enter t phase).phase t' = s.phase t' :=
  Function.update_of_ne other ..

theorem participants_enter : (s.enter t phase).participants = s.participants :=
  rfl

theorem writing_enter (eq : phase.writing = (s.phase t).writing) (t') :
    ((s.enter t phase).phase t').writing = (s.phase t').writing := by
  by_cases moved : t' = t
  · subst moved
    rwa [phase_enter_self]
  · rw [phase_enter_ne moved]

theorem sound_enter {participants} (own : phase.Sound participants)
    (others : ∀ t' ≠ t, (s.phase t').Sound participants) (t') :
    ((s.enter t phase).phase t').Sound participants := by
  by_cases moved : t' = t
  · subst moved
    rwa [phase_enter_self]
  · rw [phase_enter_ne moved]
    exact others t' moved

theorem apart_enter (ne : ∀ t t', t ≠ t' → (s.phase t).Apart (s.phase t'))
    (own : ∀ t' ≠ t, phase.Apart (s.phase t')) (t₁ t₂) (different : t₁ ≠ t₂) :
    ((s.enter t phase).phase t₁).Apart ((s.enter t phase).phase t₂) := by
  by_cases left : t₁ = t
  · subst left
    rw [phase_enter_self, phase_enter_ne different.symm]
    exact own t₂ different.symm
  · by_cases right : t₂ = t
    · subst right
      rw [phase_enter_self, phase_enter_ne left]
      exact (own t₁ left).symm
    · rw [phase_enter_ne left, phase_enter_ne right]
      exact ne t₁ t₂ different

theorem apart_enter_same (ne : ∀ t t', t ≠ t' → (s.phase t).Apart (s.phase t'))
    (tx : phase.tx = (s.phase t).tx) (writing : phase.writing = (s.phase t).writing) (t₁ t₂)
    (different : t₁ ≠ t₂) : ((s.enter t phase).phase t₁).Apart ((s.enter t phase).phase t₂) := by
  apply apart_enter ne ?_ t₁ t₂ different
  intro t' other
  have pre := ne t t' other.symm
  exact ⟨tx ▸ pre.ids, writing ▸ pre.values⟩

end

section

variable [DecidableEq T] {s : State P T V} {agreed : GoMap String V} {t : T} {tx : Transaction V}

theorem Agrees.start (inv : Agrees s agreed) (idle : s.phase t = .idle)
    (fresh : ∀ t' tx', (s.phase t').tx = some tx' → tx.id ≠ tx'.id) :
    Agrees (s.enter t (.preparing tx ∅ true)) agreed := by
  constructor
  · exact sound_enter ⟨rfl, fun _ mem => absurd mem (Finset.notMem_empty _)⟩
      fun t' _ => inv.sound t'
  · apply apart_enter inv.apart
    intro t' _
    constructor
    · intro tx₁ tx₂ x y
      cases x
      exact fresh t' tx₂ y
    · intro k v value' writing
      cases writing
  · have writing : ∀ t', ((s.enter t (.preparing tx ∅ true)).phase t').writing =
        (s.phase t').writing := writing_enter (by rw [idle]; rfl)
    simp only [writing]
    exact inv.held

variable {yes : Bool}

theorem Agrees.decide [Fintype P] (inv : Agrees s agreed)
    (preparing : s.phase t = .preparing tx Finset.univ yes)
    (alone : ∀ t' v, (s.phase t').writing = some (tx.key, v) → tx.value = v) :
    Agrees (s.enter t (.committing tx ∅)) agreed := by
  have own := inv.sound t
  rw [preparing] at own
  constructor
  · apply sound_enter ?_ fun t' _ => inv.sound t'
    exact ⟨fun p _ => own.2 p (Finset.mem_univ p), fun _ mem => absurd mem (Finset.notMem_empty _)⟩
  · apply apart_enter inv.apart
    intro t' other
    have pre := inv.apart t t' other.symm
    rw [preparing] at pre
    refine ⟨pre.ids, fun k v value' x y => ?_⟩
    cases x
    exact alone t' value' y
  · intro p k
    apply (inv.held p k).imp_right
    rintro ⟨t', v, writing, eq⟩
    have other : t' ≠ t := by
      rintro rfl
      rw [preparing] at writing
      cases writing
    exact ⟨t', v, by rwa [phase_enter_ne other], eq⟩

theorem Agrees.finish [Fintype P] (inv : Agrees s agreed)
    (busy : s.phase t = .committing tx Finset.univ) :
    Agrees (s.enter t .finished) (agreed.insert tx.key tx.value) := by
  have own := inv.sound t
  rw [busy] at own
  constructor
  · exact sound_enter trivial fun t' _ => inv.sound t'
  · apply apart_enter inv.apart
    intro t' _
    constructor
    · intro tx₁ tx₂ x
      cases x
    · intro k v value' x
      cases x
  · intro p k
    rw [GoMap.lookup_insert_ite]
    by_cases written : k = tx.key
    · rw [if_pos written, written]
      exact .inl (own.2 p (Finset.mem_univ p))
    · rw [if_neg written]
      apply (inv.held p k).imp_right
      rintro ⟨t', v, writing, eq⟩
      have other : t' ≠ t := by
        rintro rfl
        rw [busy] at writing
        cases writing
        exact written rfl
      exact ⟨t', v, by rwa [phase_enter_ne other], eq⟩

variable [DecidableEq P] {p : P}

theorem Agrees.prepare (inv : Agrees s agreed) {voted : Finset P}
    (preparing : s.phase t = .preparing tx voted yes) :
    Agrees ((s.setParticipant p ((s.participants p).prepare tx).1).enter t
      (.preparing tx (insert p voted) (yes && true))) agreed := by
  have own := inv.sound t
  rw [preparing] at own
  constructor
  · apply sound_enter
    · refine ⟨by rw [own.1]; rfl, fun q mem => ?_⟩
      rw [participants_enter, lookup_prepared_prepare]
      split
      · rfl
      next other =>
        apply own.2 q (Finset.mem_of_mem_insert_of_ne mem _)
        intro eq
        exact other ⟨eq, rfl⟩
    · intro t' other
      refine (inv.sound t').frame (fun tx' active q => ?_) fun k v _ q held => ?_
      · have ids := (inv.apart t' t other).ids tx' tx active (by rw [preparing]; rfl)
        rw [participants_enter, lookup_prepared_prepare, if_neg fun both => ids both.2]
      · rwa [participants_enter, data_prepare]
  · exact apart_enter_same inv.apart (by rw [phase_setParticipant, preparing]; rfl)
      (by rw [phase_setParticipant, preparing]; rfl)
  · intro q k
    rw [participants_enter, data_prepare]
    apply (inv.held q k).imp_right
    rintro ⟨t', v, writing, held⟩
    refine ⟨t', v, ?_, held⟩
    rw [writing_enter (by rw [phase_setParticipant, preparing]; rfl)]
    exact writing

theorem Agrees.commit (inv : Agrees s agreed) {committed : Finset P}
    (busy : s.phase t = .committing tx committed) (new : p ∉ committed) :
    Agrees ((s.setParticipant p ((s.participants p).commit tx.id)).enter t
      (.committing tx (insert p committed))) agreed := by
  have own := inv.sound t
  rw [busy] at own
  have hit := own.1 p new
  constructor
  · apply sound_enter
    · refine ⟨fun q outside => ?_, fun q mem => ?_⟩
      · obtain ⟨other, outside⟩ := not_or.mp (Finset.mem_insert.not.mp outside)
        rw [participants_enter, lookup_prepared_commit hit (.inl other)]
        exact own.1 q outside
      · rw [participants_enter, lookup_data_commit hit]
        split
        · rfl
        next other =>
          apply own.2 q (Finset.mem_of_mem_insert_of_ne mem _)
          intro eq
          exact other ⟨eq, rfl⟩
    · intro t' other
      have ne := inv.apart t' t other
      rw [busy] at ne
      refine (inv.sound t').frame (fun tx' active q => ?_) fun k v writing q held => ?_
      · rw [participants_enter, lookup_prepared_commit hit (.inr (ne.ids tx' tx active rfl))]
      · rw [participants_enter, lookup_data_commit hit]
        split
        next both =>
          obtain ⟨-, rfl⟩ := both
          rw [ne.values tx.key v tx.value writing rfl]
        · exact held
  · exact apart_enter_same inv.apart (by rw [phase_setParticipant, busy]; rfl)
      (by rw [phase_setParticipant, busy]; rfl)
  · intro q k
    rw [participants_enter, lookup_data_commit hit]
    split
    next both =>
      exact .inr ⟨t, tx.value, by rw [phase_enter_self, both.2]; rfl, rfl⟩
    · apply (inv.held q k).imp_right
      rintro ⟨t', v, writing, held⟩
      refine ⟨t', v, ?_, held⟩
      rw [writing_enter (by rw [phase_setParticipant, busy]; rfl)]
      exact writing

end

/-- A call starts with an id that no call uses, and decides to commit only when no call is
committing another value for its key. -/
def Exclusive (s : State P T V) : Event P T V → Prop
  | .start _ tx => ∀ t', ∀ other ∈ (s.phase t').tx, tx.id ≠ other.id
  | .decide t => ∀ tx ∈ (s.phase t).tx, ∀ t', ∀ write ∈ (s.phase t').writing,
      write.1 = tx.key → tx.value = write.2
  | _ => True

instance [Fintype T] [DecidableEq V] (s : State P T V) : DecidablePred (Exclusive s)
  | .start _ tx => inferInstanceAs (Decidable (∀ t', ∀ other ∈ (s.phase t').tx, tx.id ≠ other.id))
  | .decide t => inferInstanceAs (Decidable (∀ tx ∈ (s.phase t).tx, ∀ t',
      ∀ write ∈ (s.phase t').writing, write.1 = tx.key → tx.value = write.2))
  | .prepare _ _ => isTrue trivial
  | .commit _ _ => isTrue trivial
  | .finish _ => isTrue trivial
  | .rollback _ _ => isTrue trivial
  | .giveUp _ => isTrue trivial
  | .notify _ _ => isTrue trivial

variable [DecidableEq P] [Fintype P] [DecidableEq T]

theorem step_agrees {next e} (agrees : Agrees s agreed) (exclusive : Exclusive s e)
    (took : step s e = some next) : ∃ agreed, Agrees next agreed := by
  have impossible : ∀ {t : T} {phase : Phase P V}, s.phase t = phase →
      ¬ phase.Sound s.participants → ∃ agreed, Agrees next agreed := by
    intro t phase eq unsound
    exact absurd (eq ▸ agrees.sound t) unsound
  cases moves_of_step took with
  | start tx idle => exact ⟨agreed, agrees.start idle exclusive⟩
  | prepare phase _ => exact ⟨agreed, agrees.prepare phase⟩
  | @decideCommit t tx voted phase all =>
    subst all
    refine ⟨agreed, agrees.decide phase fun t' v writing => ?_⟩
    exact exclusive tx (by rw [phase]; rfl) t' (tx.key, v) writing rfl
  | decideAbort phase _ => exact impossible phase fun inv => Bool.noConfusion inv.1
  | commit phase new => exact ⟨agreed, agrees.commit phase new⟩
  | finish phase all =>
    subst all
    exact ⟨_, agrees.finish phase⟩
  | rollback phase _ | giveUp phase | notify phase _ => exact impossible phase id

/-- Whenever all the calls so far have returned, the participants hold the same data. -/
theorem participants_agree (data : GoMap String V) {events : List (Event P T V)}
    {s : State P T V} (run : exec step (init P T data) events = some s)
    (exclusive : Along step Exclusive (init P T data) events)
    (returned : ∀ t, (s.phase t).returned = true) (p q : P) (key : String) :
    (s.participants p).data.lookup key = (s.participants q).data.lookup key := by
  obtain ⟨agreed, agrees⟩ := exec_guarded (fun s => ∃ agreed, Agrees s agreed)
    ⟨data, init_agrees data⟩ (fun _ _ _ ⟨_, agrees⟩ => step_agrees agrees) run exclusive
  rw [agrees.data_eq returned p, agrees.data_eq returned q]

def oneAfterTheOther : List (Event Bool Bool Nat) :=
  [.start false ⟨"tx_1", "k", 1⟩, .start true ⟨"tx_2", "k", 2⟩,
    .prepare false false, .prepare true true, .prepare true false, .prepare false true,
    .decide false, .commit false true, .commit false false, .finish false,
    .decide true, .commit true false, .commit true true, .finish true]

theorem participants_agree_in_turn :
    ∃ s, exec step (init Bool Bool ∅) oneAfterTheOther = some s ∧
      (s.participants false).data.lookup "k" = (s.participants true).data.lookup "k" := by
  refine exists_exec (fun s => ∀ t, (s.phase t).returned = true) (by decide) ?_
  intro s run returned
  have exclusive : Along step Exclusive (init Bool Bool ∅) oneAfterTheOther :=
    along_of_decide (by decide)
  exact participants_agree ∅ run exclusive returned false true "k"

/-- The same two calls, with commits that reach the participants in opposite orders. -/
def crossing : List (Event Bool Bool Nat) :=
  [.start false ⟨"tx_1", "k", 1⟩, .start true ⟨"tx_2", "k", 2⟩,
    .prepare false false, .prepare true true, .prepare true false, .prepare false true,
    .decide false, .decide true, .commit false false, .commit true false,
    .commit true true, .commit false true, .finish false, .finish true]

theorem crossing_commits_disagree :
    ((exec step (init Bool Bool ∅) crossing).map fun s =>
      (decide (∀ t, (s.phase t).returned = true), (s.participants false).data.lookup "k",
        (s.participants true).data.lookup "k")) = some (true, some 2, some 1) := by
  decide

end AsyncPractice.TwoPhaseCommit
