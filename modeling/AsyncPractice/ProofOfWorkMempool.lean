import AsyncPractice.ProofOfWork
import Mathlib.Data.List.Perm.Basic

/- Calls that run one after another, and what becomes of the transactions. -/
namespace AsyncPractice.ProofOfWork

open Option List Runs

variable {M T A : Type} {lib : Library T A}

inductive Call (T A : Type)
  | addTransaction (tx : BlockchainTransaction T A)
  | mineBlock (miner : String) (now : T) (rounds : Nat) (err : String)

/-- The blockchain with every transaction that was ever added. -/
structure Ledger (T A : Type) where
  bc : PoWBlockchain T A
  added : List (BlockchainTransaction T A)

variable (lib) in
def call (s : Ledger T A) : Call T A → Option (Ledger T A)
  | .addTransaction tx => some ⟨addTransaction s.bc tx, s.added ++ [tx]⟩
  | .mineBlock miner now rounds err =>
    (mineBlock lib s.bc miner now rounds err).map fun (bc, _) => ⟨bc, s.added⟩

def newLedger (lib : Library T A) (now : T) (difficulty : Nat) : Ledger T A :=
  ⟨{ newPoWBlockchain lib now with difficulty }, []⟩

/-- The mempool and the blocks hold every transaction as often as it was added. -/
def Conserved (s : Ledger T A) : Prop :=
  (s.bc.mempool ++ s.bc.chain.flatMap (·.transactions)).Perm s.added

/-- A MineBlock that returns an error has changed neither the mempool nor the chain. -/
def FailsClean (lib : Library T A) (s : Ledger T A) : Call T A → Prop
  | .addTransaction _ => True
  | .mineBlock miner now rounds err => ∀ bc reason,
      mineBlock lib s.bc miner now rounds err = some (bc, .error reason) →
        bc.mempool = s.bc.mempool ∧ bc.chain = s.bc.chain

/-- MineBlock is not cancelled once it has taken the transactions. -/
def Finishes (lib : Library T A) (s : Ledger T A) : Call T A → Prop
  | .addTransaction _ => True
  | .mineBlock miner now rounds _ => s.bc.mempool ≠ [] → ∀ prevBlock ∈ s.bc.chain.getLast?,
      proofOfWork lib s.bc.difficulty (candidate s.bc prevBlock now miner) 0 rounds ≠ some none

variable {rounds : Nat}

theorem proofOfWork_found {d newBlock block nonce}
    (hit : proofOfWork lib d newBlock nonce rounds = some (some block)) :
    ∃ nonce, attempt lib d newBlock nonce = some (some block) := by
  induction rounds generalizing nonce with
  | zero => cases hit
  | succ rounds ih =>
    obtain ⟨res, tried, hit⟩ := bind_eq_some_iff.mp hit
    cases res with
    | none => exact ih hit
    | some x =>
      obtain rfl := some.inj (some.inj hit)
      exact ⟨nonce, tried⟩

inductive Mined (lib : Library T A) (bc : PoWBlockchain T A) (miner : String) (now : T)
    (rounds : Nat) (err : String) : PoWBlockchain T A → Except String (Block T A) → Prop
  | empty (none : bc.mempool = []) :
      Mined lib bc miner now rounds err bc (.error "no transactions to mine")
  | cancelled {prevBlock : Block T A} (some : bc.mempool ≠ [])
      (last : bc.chain.getLast? = .some prevBlock)
      (stopped : proofOfWork lib bc.difficulty (candidate bc prevBlock now miner) 0 rounds =
        .some none) :
      Mined lib bc miner now rounds err { bc with mempool := [] } (.error err)
  | found {block : Block T A} (transactions : block.transactions = bc.mempool) :
      Mined lib bc miner now rounds err
        { bc with mempool := [], chain := bc.chain ++ [block] } (.ok block)

variable {bc t : PoWBlockchain T A} {err miner : String} {now : T} {res : Except String (Block T A)}

theorem mined_of_mineBlock (free : bc.mining = false)
    (mined : mineBlock lib bc miner now rounds err = some (t, res)) :
    Mined lib bc miner now rounds err t res := by
  unfold mineBlock at mined
  rw [if_neg (show ¬ bc.mining = true by rw [free]; exact Bool.false_ne_true)] at mined
  split at mined
  next none =>
    obtain ⟨rfl, rfl⟩ := Prod.mk.inj (some.inj mined)
    exact .empty none
  next some =>
    obtain ⟨prevBlock, last, mined⟩ := bind_eq_some_iff.mp mined
    obtain ⟨out, worked, ended⟩ := map_eq_some_iff.mp mined
    cases out with
    | none =>
      obtain ⟨rfl, rfl⟩ := Prod.mk.inj ended
      exact .cancelled some last worked
    | some b =>
      obtain ⟨rfl, rfl⟩ := Prod.mk.inj ended
      obtain ⟨nonce, tried⟩ := proofOfWork_found worked
      exact .found (attempt_found tried).2.2.2.2

theorem mining_mineBlock (free : bc.mining = false)
    (mined : mineBlock lib bc miner now rounds err = some (t, res)) : t.mining = false := by
  cases mined_of_mineBlock free mined with
  | empty none => exact free
  | cancelled some last halt => exact free
  | found transactions => exact free

section

variable [DecidableEq M]

@[simp] theorem become_become (s : State M T A) (m) (x y : Phase T A) :
    (s.become m x).become m y = s.become m y := by
  simp only [State.become, Function.update_idem]

@[simp] theorem become_phase (s : State M T A) (m) (phase : Phase T A) :
    (s.become m phase).phase m = phase := Function.update_self ..

def Phase.ofOutcome (err : String) : Option (Block T A) → Phase T A
  | none => .leaving (.error err)
  | some block => .found block

variable {s : State M T A} {m : M}

theorem proofOfWork_exec {newBlock nonce outcome} (err : String)
    (worked : proofOfWork lib s.bc.difficulty newBlock nonce rounds = some outcome) :
    ∃ es, exec (step lib) (s.become m (.working newBlock nonce)) es =
      some (s.become m (.ofOutcome err outcome)) := by
  induction rounds generalizing nonce with
  | zero =>
    cases worked
    refine ⟨[.cancel m err], exec_cons_some.mpr ⟨_, ?_, rfl⟩⟩
    simp [step, Phase.ofOutcome]
  | succ rounds ih =>
    obtain ⟨res, tried, worked⟩ := bind_eq_some_iff.mp worked
    cases res with
    | none =>
      obtain ⟨es, run⟩ := ih worked
      refine ⟨.attempt m :: es, exec_cons_some.mpr ⟨_, ?_, run⟩⟩
      simp only [step, become_phase]
      rw [show (s.become m (.working newBlock nonce)).bc = s.bc from rfl, tried]
      simp
    | some b =>
      cases worked
      refine ⟨[.attempt m], exec_cons_some.mpr ⟨_, ?_, rfl⟩⟩
      simp only [step, become_phase]
      rw [show (s.become m (.working newBlock nonce)).bc = s.bc from rfl, tried]
      simp [Phase.ofOutcome]

def PoWBlockchain.busy (bc : PoWBlockchain T A) : PoWBlockchain T A := { bc with mining := true }

theorem step_leave (s : State M T A) (m : M) (res : Except String (Block T A))
    (free : bc.mining = false) :
    step lib ({ s with bc := bc.busy }.become m (.leaving res)) (.leave m) =
      some ({ s with bc }.become m (.returned res)) := by
  have unset : { bc.busy with mining := false } = bc := by
    rw [← free]
    rfl
  simp only [step, become_phase]
  rw [show (({ s with bc := bc.busy } : State M T A).become m (.leaving res)).bc = bc.busy
    from rfl, unset]
  simp only [State.become, Function.update_idem]

theorem entered_exec (s : State M T A) (m : M) (free : s.bc.mining = false)
    (mined : mineBlock lib s.bc miner now rounds err = some (bc, res)) :
    ∃ es, exec (step lib) ({ s with bc := s.bc.busy }.become m .entered) es =
      some ({ s with bc := bc.busy }.become m (.leaving res)) := by
  rw [mineBlock, if_neg (by rw [free]; exact Bool.false_ne_true)] at mined
  split at mined
  next none =>
    obtain ⟨rfl, rfl⟩ := Prod.mk.inj (some.inj mined)
    refine ⟨[.prepare m miner now], exec_cons_some.mpr ⟨_, ?_, rfl⟩⟩
    simp [step, State.become, PoWBlockchain.busy, none]
  next some =>
    obtain ⟨prevBlock, last, mined⟩ := bind_eq_some_iff.mp mined
    obtain ⟨out, worked, ended⟩ := map_eq_some_iff.mp mined
    have prepared : step lib ({ s with bc := s.bc.busy }.become m .entered)
        (.prepare m miner now) = .some ({ s with bc := { s.bc.busy with mempool := [] } }.become m
          (.working (candidate s.bc prevBlock now miner) 0)) := by
      simp [step, State.become, PoWBlockchain.busy, some, last, candidate]
    obtain ⟨es, run⟩ := proofOfWork_exec
      (s := { s with bc := { s.bc.busy with mempool := [] } }) (m := m) err worked
    cases out with
    | none =>
      obtain ⟨rfl, rfl⟩ := Prod.mk.inj ended
      exact ⟨_, exec_cons_some.mpr ⟨_, prepared, run⟩⟩
    | some b =>
      obtain ⟨rfl, rfl⟩ := Prod.mk.inj ended
      refine ⟨.prepare m miner now :: (es ++ [.append m]),
        exec_cons_some.mpr ⟨_, prepared, exec_snoc_some.mpr ⟨_, run, ?_⟩⟩⟩
      simp [step, Phase.ofOutcome, State.become, PoWBlockchain.busy]

/-- A call that runs alone takes the steps of a call among others. -/
theorem mineBlock_exec (idle : s.phase m = .idle)
    (mined : mineBlock lib s.bc miner now rounds err = some (bc, res)) :
    ∃ es, exec (step lib) s es = some ({ s with bc }.become m (.returned res)) := by
  cases busy : s.bc.mining with
  | true =>
    rw [mineBlock, if_pos busy] at mined
    obtain ⟨rfl, rfl⟩ := Prod.mk.inj (some.inj mined)
    refine ⟨[.enter m], exec_cons_some.mpr ⟨_, ?_, rfl⟩⟩
    simp [step, idle, busy]
  | false =>
    have entered : step lib s (.enter m) = some ({ s with bc := s.bc.busy }.become m .entered) := by
      simp [step, idle, busy, PoWBlockchain.busy]
    obtain ⟨es, run⟩ := entered_exec s m busy mined
    exact ⟨.enter m :: (es ++ [.leave m]), exec_cons_some.mpr ⟨_, entered,
      exec_snoc_some.mpr ⟨_, run, step_leave s m res (mining_mineBlock busy mined)⟩⟩⟩

theorem mineBlock_exec_cancelled :
    ∃ es s, exec (step exampleLibrary) (init Unit (addTransaction
        (newPoWBlockchain exampleLibrary 0) ⟨"tx1", "Alice", "Bob", 100, 0⟩)) es = some s ∧
      s.phase () = .returned (.error "context canceled") := by
  obtain ⟨es, run⟩ := mineBlock_exec (s := init Unit (addTransaction
    (newPoWBlockchain exampleLibrary 0) ⟨"tx1", "Alice", "Bob", 100, 0⟩)) (m := ()) rfl
    (show mineBlock _ _ "Miner1" 1 0 "context canceled" = some _ from rfl)
  exact ⟨es, _, run, rfl⟩

end

variable {s t : Ledger T A}

theorem conserved_addTransaction (inv : Conserved s) (tx) :
    Conserved ⟨addTransaction s.bc tx, s.added ++ [tx]⟩ := by
  unfold Conserved addTransaction
  rw [append_assoc]
  refine (List.Perm.append_left s.bc.mempool perm_append_comm).trans ?_
  rw [← append_assoc]
  exact inv.append_right [tx]

theorem conserved_found (inv : Conserved s) {b} (transactions : b.transactions = s.bc.mempool) :
    Conserved ⟨{ s.bc with mempool := [], chain := s.bc.chain ++ [b] }, s.added⟩ := by
  unfold Conserved
  rw [nil_append, flatMap_append, flatMap_singleton, transactions]
  exact perm_append_comm.trans inv

/-- What a cancelled call has taken is nowhere. -/
theorem not_conserved_cancelled (inv : Conserved s) (taken : s.bc.mempool ≠ []) :
    ¬ Conserved ⟨{ s.bc with mempool := [] }, s.added⟩ := by
  intro still
  have pre := inv.length_eq
  have after := still.length_eq
  have pos := length_pos_iff.mpr taken
  rw [length_append] at pre after
  dsimp only [length_nil] at after
  omega

/-- Calls one after another, between which nothing is mining. -/
structure Settled (s : Ledger T A) : Prop where
  conserved : Conserved s
  free : s.bc.mining = false

variable {e : Call T A}

theorem Settled.after (inv : Settled s) (finishes : Finishes lib s e)
    (called : call lib s e = some t) : Settled t := by
  cases e with
  | addTransaction tx =>
    cases called
    exact ⟨conserved_addTransaction inv.conserved tx, inv.free⟩
  | mineBlock miner now rounds err =>
    obtain ⟨⟨bc, res⟩, mined, rfl⟩ := map_eq_some_iff.mp called
    refine ⟨?_, mining_mineBlock inv.free mined⟩
    cases mined_of_mineBlock inv.free mined with
    | empty none => exact inv.conserved
    | cancelled taken last halt => exact absurd halt (finishes taken _ last)
    | found transactions => exact conserved_found inv.conserved transactions

theorem Settled.finishes (inv : Settled s) (kept : ∀ t, call lib s e = some t → Conserved t) :
    Finishes lib s e := by
  cases e with
  | addTransaction tx => trivial
  | mineBlock miner now rounds err =>
    intro taken prevBlock last halt
    refine not_conserved_cancelled inv.conserved taken (kept _ ?_)
    have free : ¬ s.bc.mining = true := by
      rw [inv.free]
      exact Bool.false_ne_true
    simp [call, mineBlock, free, taken, Option.mem_def.mp last, halt]

theorem Settled.failsClean (inv : Settled s) (finishes : Finishes lib s e) :
    FailsClean lib s e := by
  cases e with
  | addTransaction tx => trivial
  | mineBlock miner now rounds err =>
    intro bc reason mined
    cases mined_of_mineBlock inv.free mined with
    | empty none => exact ⟨rfl, rfl⟩
    | cancelled taken last halt => exact absurd halt (finishes taken _ last)

/-- Transactions are conserved, and errors leave the mempool and the chain alone, exactly when no
MineBlock is cancelled that has found transactions. -/
theorem transactions_conserved_iff (lib : Library T A) (now : T) (difficulty : Nat)
    (calls : List (Call T A)) :
    (Throughout (call lib) Conserved (newLedger lib now difficulty) calls ∧
      Along (call lib) (FailsClean lib) (newLedger lib now difficulty) calls) ↔
      Along (call lib) (Finishes lib) (newLedger lib now difficulty) calls := by
  have settled : Settled (newLedger lib now difficulty) := ⟨List.Perm.refl _, rfl⟩
  have conserved : Throughout (call lib) Conserved (newLedger lib now difficulty) calls ↔
      Along (call lib) (Finishes lib) (newLedger lib now difficulty) calls :=
    throughout_iff_along Settled settled (fun _ held => held.conserved) (fun _ => True)
      (fun _ _ _ held _ finishes called => held.after finishes called)
      (fun _ _ held _ kept => held.finishes kept) (fun _ _ => trivial)
  constructor
  · rintro ⟨kept, -⟩
    exact conserved.mp kept
  · intro finishes
    refine ⟨conserved.mpr finishes, ?_⟩
    intro before event after split s run
    subst split
    have held := exec_guarded Settled settled
      (fun _ _ _ held finishes called => held.after finishes called) run finishes.initial
    exact held.failsClean (finishes before event after rfl s run)

/-- The call takes the only transaction and is cancelled before its first round. -/
theorem cancelled_mining_loses_transaction :
    ∃ s, exec (call exampleLibrary) (newLedger exampleLibrary 0 4)
        [.addTransaction ⟨"tx1", "Alice", "Bob", 100, 0⟩,
          .mineBlock "Miner1" 1 0 "context canceled"] = some s ∧
      s.added = [⟨"tx1", "Alice", "Bob", 100, 0⟩] ∧ s.bc.mempool = [] ∧
      s.bc.chain.flatMap (·.transactions) = [] :=
  ⟨_, rfl, rfl, rfl, rfl⟩

end AsyncPractice.ProofOfWork
