import AsyncPractice.Checksum
import AsyncPractice.Runs
import Mathlib.Data.List.Chain

/- PoWBlockchain of solution20_blockchain_consensus.go, with MineBlock split at its critical
sections, each of which is one step. The instants and amounts and what %v prints for them are
parameters, and so is the SHA-256 of a text. -/
namespace AsyncPractice.ProofOfWork

structure BlockchainTransaction (T A : Type) where
  id : String
  from_ : String
  to_ : String
  amount : A
  timestamp : T

/-- A slice is never longer than an int can count, so that the indices do not overflow. -/
structure Block (T A : Type) where
  index : Int
  timestamp : T
  transactions : List (BlockchainTransaction T A)
  prevHash : String
  hash : String
  nonce : Int64
  miner : String

/-- What the program takes from its libraries: the texts of instants and amounts, the zero
time.Time, and the digest of a text. -/
structure Library (T A : Type) where
  time : T → String
  amount : A → String
  zeroTime : T
  sum256 : String → Bytes

section

variable {T A : Type} (lib : Library T A)

def formatTransaction (tx : BlockchainTransaction T A) : String :=
  "\x7b" ++ tx.id ++ " " ++ tx.from_ ++ " " ++ tx.to_ ++ " " ++ lib.amount tx.amount ++ " " ++
    lib.time tx.timestamp ++ "\x7d"

def formatTransactions (txs : List (BlockchainTransaction T A)) : String :=
  "[" ++ " ".intercalate (txs.map (formatTransaction lib)) ++ "]"

/-- Sprintf("%d%v%v%s%d", Index, Timestamp, Transactions, PrevHash, Nonce). -/
def hashInput (block : Block T A) : String :=
  toString block.index ++ lib.time block.timestamp ++ formatTransactions lib block.transactions ++
    block.prevHash ++ toString block.nonce

def calculateHash (block : Block T A) : String := hexEncode (lib.sum256 (hashInput lib block))

end

/-- `none` is the panic on a text that is too short. -/
def isValidHash (difficulty : Nat) (hash : String) : Option Bool :=
  if hash.utf8ByteSize < difficulty then none
  else some (hash.toList.take difficulty = List.replicate difficulty '0')

/-- The validators are never used. -/
structure PoWBlockchain (T A : Type) where
  chain : List (Block T A)
  difficulty : Nat
  mempool : List (BlockchainTransaction T A)
  mining : Bool

section

variable {T A : Type} (lib : Library T A)

def genesis (now : T) : Block T A :=
  { index := 0
    timestamp := now
    transactions := []
    prevHash := "0"
    hash := calculateHash lib ⟨0, lib.zeroTime, [], "0", "", 0, ""⟩
    nonce := 0
    miner := "" }

def newPoWBlockchain (now : T) : PoWBlockchain T A := ⟨[genesis lib now], 4, [], false⟩

def addTransaction (bc : PoWBlockchain T A) (tx : BlockchainTransaction T A) : PoWBlockchain T A :=
  { bc with mempool := bc.mempool ++ [tx] }

def candidate (bc : PoWBlockchain T A) (prevBlock : Block T A) (now : T) (miner : String) :
    Block T A :=
  { index := prevBlock.index + 1
    timestamp := now
    transactions := bc.mempool
    prevHash := prevBlock.hash
    hash := ""
    nonce := 0
    miner }

def validateFrom (difficulty : Nat) (prev : Block T A) : List (Block T A) → Option Bool
  | [] => some true
  | current :: rest =>
    if current.hash ≠ calculateHash lib current then some false
    else if current.prevHash ≠ prev.hash then some false
    else (isValidHash difficulty current.hash).bind fun
      | false => some false
      | true => validateFrom difficulty current rest

def validateChain (bc : PoWBlockchain T A) : Option Bool :=
  match bc.chain with
  | [] => some true
  | first :: rest => validateFrom lib bc.difficulty first rest

/-- The outcome of one round of the loop with the nonce: the finished block, if its hash is
valid. -/
def attempt (difficulty : Nat) (newBlock : Block T A) (nonce : Int64) :
    Option (Option (Block T A)) :=
  let newBlock := { newBlock with nonce }
  let hash := calculateHash lib newBlock
  (isValidHash difficulty hash).map fun valid => if valid then some { newBlock with hash } else none

/-- The loop from a nonce on, when ctx is done after so many rounds. -/
def proofOfWork (difficulty : Nat) (newBlock : Block T A) (nonce : Int64) :
    Nat → Option (Option (Block T A))
  | 0 => some none
  | rounds + 1 => (attempt lib difficulty newBlock nonce).bind fun
      | some block => some (some block)
      | none => proofOfWork difficulty newBlock (nonce + 1) rounds

/-- A whole call of MineBlock with nothing in between. `err` is what ctx.Err() returns. -/
def mineBlock (bc : PoWBlockchain T A) (miner : String) (now : T) (rounds : Nat) (err : String) :
    Option (PoWBlockchain T A × Except String (Block T A)) :=
  if bc.mining then some (bc, .error "already mining")
  else if bc.mempool = [] then some (bc, .error "no transactions to mine")
  else bc.chain.getLast?.bind fun prevBlock =>
    (proofOfWork lib bc.difficulty (candidate bc prevBlock now miner) 0 rounds).map fun
      | none => ({ bc with mempool := [] }, .error err)
      | some block => ({ bc with mempool := [], chain := bc.chain ++ [block] }, .ok block)

end

/-- Where a call of MineBlock stands. `leaving` is before the deferred store. -/
inductive Phase (T A : Type)
  | idle
  | entered
  | working (newBlock : Block T A) (nonce : Int64)
  | found (newBlock : Block T A)
  | leaving (result : Except String (Block T A))
  | returned (result : Except String (Block T A))

/-- The calls `M` of MineBlock on one blockchain. -/
structure State (M T A : Type) where
  bc : PoWBlockchain T A
  phase : M → Phase T A

inductive Event (M T A : Type)
  | addTransaction (tx : BlockchainTransaction T A)
  | enter (m : M)
  | prepare (m : M) (miner : String) (now : T)
  | attempt (m : M)
  | cancel (m : M) (err : String)
  | append (m : M)
  | leave (m : M)

section

variable {M T A : Type} [DecidableEq M] (lib : Library T A)

def init (M : Type) (bc : PoWBlockchain T A) : State M T A := ⟨bc, fun _ => .idle⟩

def State.become (s : State M T A) (m : M) (phase : Phase T A) : State M T A :=
  { s with phase := Function.update s.phase m phase }

def step (s : State M T A) : Event M T A → Option (State M T A)
  | .addTransaction tx => some { s with bc := addTransaction s.bc tx }
  | .enter m =>
    match s.phase m with
    | .idle =>
      some (if s.bc.mining then s.become m (.returned (.error "already mining"))
        else { s with bc := { s.bc with mining := true } }.become m .entered)
    | _ => none
  | .prepare m miner now =>
    match s.phase m with
    | .entered =>
      if s.bc.mempool = [] then
        some (s.become m (.leaving (.error "no transactions to mine")))
      else s.bc.chain.getLast?.map fun prevBlock =>
        { s with bc := { s.bc with mempool := [] } }.become m
          (.working (candidate s.bc prevBlock now miner) 0)
    | _ => none
  | .attempt m =>
    match s.phase m with
    | .working newBlock nonce =>
      (attempt lib s.bc.difficulty newBlock nonce).map fun
        | some block => s.become m (.found block)
        | none => s.become m (.working newBlock (nonce + 1))
    | _ => none
  | .cancel m err =>
    match s.phase m with
    | .working _ _ => some (s.become m (.leaving (.error err)))
    | _ => none
  | .append m =>
    match s.phase m with
    | .found newBlock =>
      some ({ s with bc := { s.bc with chain := s.bc.chain ++ [newBlock] } }.become m
        (.leaving (.ok newBlock)))
    | _ => none
  | .leave m =>
    match s.phase m with
    | .leaving result =>
      some ({ s with bc := { s.bc with mining := false } }.become m (.returned result))
    | _ => none

end

/- Only one call of MineBlock is past its compare-and-swap at a time, so that the block it works
on still extends the chain when it is appended. -/
open Option List Function Runs

variable {M T A : Type} {lib : Library T A}

section

/-- What ValidateChain asks of a block and the one before it. -/
structure Links (lib : Library T A) (difficulty : Nat) (prev current : Block T A) : Prop where
  hash : current.hash = calculateHash lib current
  prevHash : current.prevHash = prev.hash
  work : isValidHash difficulty current.hash = some true

theorem validateFrom_eq_true {difficulty prev rest} :
    validateFrom lib difficulty prev rest = some true ↔
      (prev :: rest).IsChain (Links lib difficulty) := by
  induction rest generalizing prev with
  | nil => simp [validateFrom]
  | cons cur rest ih =>
    rw [isChain_cons_cons, ← ih, validateFrom]
    constructor
    · intro validated
      split at validated
      · cases validated
      next hash =>
        split at validated
        · cases validated
        next prevHash =>
          obtain ⟨valid, work, validated⟩ := bind_eq_some_iff.mp validated
          cases valid with
          | false => cases validated
          | true => exact ⟨⟨not_not.mp hash, not_not.mp prevHash, work⟩, validated⟩
    · rintro ⟨links, validated⟩
      rw [if_neg (not_not.mpr links.hash), if_neg (not_not.mpr links.prevHash), links.work]
      exact validated

theorem validateChain_eq_true {bc} :
    validateChain lib bc = some true ↔ bc.chain.IsChain (Links lib bc.difficulty) := by
  unfold validateChain
  cases bc.chain with
  | nil => simp
  | cons x rest => exact validateFrom_eq_true

end

section

inductive Moves [DecidableEq M] (lib : Library T A) (s : State M T A) :
    Event M T A → State M T A → Prop
  | addTransaction (tx : BlockchainTransaction T A) :
      Moves lib s (.addTransaction tx) { s with bc := addTransaction s.bc tx }
  | refuse {m : M} (idle : s.phase m = .idle) (busy : s.bc.mining = true) :
      Moves lib s (.enter m) (s.become m (.returned (.error "already mining")))
  | enter {m : M} (idle : s.phase m = .idle) (free : s.bc.mining = false) :
      Moves lib s (.enter m) ({ s with bc := { s.bc with mining := true } }.become m .entered)
  | giveUp {m : M} {miner : String} {now : T} (entered : s.phase m = .entered)
      (none : s.bc.mempool = []) :
      Moves lib s (.prepare m miner now)
        (s.become m (.leaving (.error "no transactions to mine")))
  | prepare {m : M} {miner : String} {now : T} {prevBlock : Block T A}
      (entered : s.phase m = .entered) (last : s.bc.chain.getLast? = some prevBlock) :
      Moves lib s (.prepare m miner now) ({ s with bc := { s.bc with mempool := [] } }.become m
        (.working (candidate s.bc prevBlock now miner) 0))
  | find {m : M} {newBlock block : Block T A} {nonce : Int64}
      (working : s.phase m = .working newBlock nonce)
      (valid : attempt lib s.bc.difficulty newBlock nonce = some (some block)) :
      Moves lib s (.attempt m) (s.become m (.found block))
  | miss {m : M} {newBlock : Block T A} {nonce : Int64}
      (working : s.phase m = .working newBlock nonce) :
      Moves lib s (.attempt m) (s.become m (.working newBlock (nonce + 1)))
  | cancel {m : M} {newBlock : Block T A} {nonce : Int64} (err : String)
      (working : s.phase m = .working newBlock nonce) :
      Moves lib s (.cancel m err) (s.become m (.leaving (.error err)))
  | append {m : M} {newBlock : Block T A} (found : s.phase m = .found newBlock) :
      Moves lib s (.append m) ({ s with bc := { s.bc with
        chain := s.bc.chain ++ [newBlock] } }.become m (.leaving (.ok newBlock)))
  | leave {m : M} {result : Except String (Block T A)} (leaving : s.phase m = .leaving result) :
      Moves lib s (.leave m)
        ({ s with bc := { s.bc with mining := false } }.become m (.returned result))

theorem moves_of_step [DecidableEq M] {s t : State M T A} {e : Event M T A}
    (took : step lib s e = some t) : Moves lib s e t := by
  cases e with
  | addTransaction tx => exact some.inj took ▸ .addTransaction tx
  | enter m =>
    simp only [step] at took
    split at took <;> cases took
    rename_i idle
    split
    next busy =>
      exact .refuse idle busy
    next free =>
      exact .enter idle (Bool.eq_false_iff.mpr free)
  | prepare m miner now =>
    simp only [step] at took
    split at took
    next entered =>
      split at took
      next none =>
        exact some.inj took ▸ .giveUp entered none
      · obtain ⟨prevBlock, last, rfl⟩ := map_eq_some_iff.mp took
        exact .prepare entered last
    · cases took
  | attempt m =>
    simp only [step] at took
    split at took
    next newBlock nonce working =>
      obtain ⟨res, tried, rfl⟩ := map_eq_some_iff.mp took
      cases res with
      | none => exact .miss working
      | some b => exact .find working tried
    · cases took
  | cancel m err =>
    simp only [step] at took
    split at took
    next newBlock nonce working =>
      exact some.inj took ▸ .cancel err working
    · cases took
  | append m =>
    simp only [step] at took
    split at took
    next newBlock hit =>
      exact some.inj took ▸ .append hit
    · cases took
  | leave m =>
    simp only [step] at took
    split at took
    next res leaving =>
      exact some.inj took ▸ .leave leaving
    · cases took

end

section

structure ChainSound (lib : Library T A) (bc : PoWBlockchain T A) : Prop where
  nonempty : bc.chain ≠ []
  linked : bc.chain.IsChain (Links lib bc.difficulty)
  indexed : ∀ (i : Nat) block, bc.chain[i]? = some block → block.index = i

/-- The block may follow the last one of the chain. -/
def Extends (bc : PoWBlockchain T A) (block : Block T A) : Prop :=
  ∀ last ∈ bc.chain.getLast?, block.prevHash = last.hash ∧ block.index = last.index + 1

def Phase.active : Phase T A → Prop
  | idle => False
  | returned _ => False
  | _ => True

/-- What the call knows about the chain while it alone may append to it. -/
def Phase.Sound (lib : Library T A) (bc : PoWBlockchain T A) : Phase T A → Prop
  | idle => True
  | entered => True
  | working newBlock _ => Extends bc newBlock
  | found newBlock => Extends bc newBlock ∧ newBlock.hash = calculateHash lib newBlock ∧
      isValidHash bc.difficulty newBlock.hash = some true
  | leaving _ => True
  | returned _ => True

structure Sound (lib : Library T A) (s : State M T A) : Prop where
  chain : ChainSound lib s.bc
  flag : ∀ m, (s.phase m).active → s.bc.mining = true
  alone : ∀ m m', (s.phase m).active → (s.phase m').active → m = m'
  phases : ∀ m, (s.phase m).Sound lib s.bc

theorem attempt_found {difficulty newBlock block nonce}
    (valid : attempt lib difficulty newBlock nonce = some (some block)) :
    block.hash = calculateHash lib block ∧ isValidHash difficulty block.hash = some true ∧
      block.prevHash = newBlock.prevHash ∧ block.index = newBlock.index ∧
      block.transactions = newBlock.transactions := by
  unfold attempt at valid
  obtain ⟨answer, work, out⟩ := map_eq_some_iff.mp valid
  cases answer with
  | false => cases out
  | true =>
    cases out
    exact ⟨rfl, work, rfl, rfl, rfl⟩

variable {bc : PoWBlockchain T A}

theorem ChainSound.append (inv : ChainSound lib bc) {block} (after : Extends bc block)
    (hash : block.hash = calculateHash lib block)
    (work : isValidHash bc.difficulty block.hash = some true) :
    ChainSound lib { bc with chain := bc.chain ++ [block] } := by
  refine ⟨append_ne_nil_of_right_ne_nil _ (cons_ne_nil _ _), ?_, ?_⟩
  · refine inv.linked.append (isChain_singleton block) ?_
    intro last tail head x
    cases x
    exact ⟨hash, (after last tail).1, work⟩
  · intro i other hit
    rcases Nat.lt_trichotomy i bc.chain.length with inside | rfl | beyond
    · exact inv.indexed i other ((getElem?_append_left inside).symm.trans hit)
    · rw [getElem?_concat_length, some.injEq] at hit
      subst hit
      have last := getLast?_eq_some_getLast inv.nonempty
      have index := inv.indexed (bc.chain.length - 1) _ (getLast?_eq_getElem? ▸ last)
      have pos := length_pos_iff.mpr inv.nonempty
      rw [(after _ last).2, index]
      omega
    · rw [getElem?_eq_none (by rw [length_append, length_singleton]; omega)] at hit
      cases hit

variable [DecidableEq M] {s t : State M T A} {phase : Phase T A}

theorem Sound.update {m} (others : ∀ m', (s.phase m').active → m' = m) (chain : ChainSound lib bc)
    (flag : phase.active → bc.mining = true) (own : phase.Sound lib bc)
    (idle : ∀ m' ≠ m, (s.phase m').Sound lib bc) : Sound lib ({ s with bc }.become m phase) := by
  have only : ∀ m', ((({ s with bc } : State M T A).become m phase).phase m').active → m' = m := by
    intro m' active
    by_contra other
    dsimp only [State.become] at active
    rw [update_of_ne other] at active
    exact other (others m' active)
  refine ⟨chain, ?_, ?_, ?_⟩
  · intro m' active
    obtain rfl := only m' active
    dsimp only [State.become] at active
    rw [update_self] at active
    exact flag active
  · intro m' m'' active active'
    rw [only m' active, only m'' active']
  · intro m'
    dsimp only [State.become]
    by_cases same : m' = m
    · rw [same, update_self]
      exact own
    · rw [update_of_ne same]
      exact idle m' same

theorem sound_of_not_active (bc) (inactive : ¬ phase.active) : phase.Sound lib bc := by
  cases phase with
  | idle => trivial
  | returned res => trivial
  | entered | working newBlock nonce | found newBlock | leaving res =>
    exact absurd trivial inactive

theorem Sound.advance (inv : Sound lib s) {m old} (cur : s.phase m = old)
    (active : old.active) (chain : ChainSound lib bc)
    (flag : phase.active → s.bc.mining = true → bc.mining = true) (own : phase.Sound lib bc) :
    Sound lib ({ s with bc }.become m phase) := by
  rw [← cur] at active
  have others := fun m' active' => inv.alone m' m active' active
  exact Sound.update others chain (fun still => flag still (inv.flag m active)) own
    fun m' other => sound_of_not_active bc fun active' => other (others m' active')

theorem Sound.refuse (inv : Sound lib s) (m) (res : Except String (Block T A)) :
    Sound lib (s.become m (.returned res)) := by
  have kept : ∀ m', ((s.become m (.returned res)).phase m').active → (s.phase m').active := by
    intro m' active
    dsimp only [State.become] at active
    by_cases same : m' = m
    · rw [same, update_self] at active
      cases active
    · rwa [update_of_ne same] at active
  refine ⟨inv.chain, fun m' active => inv.flag m' (kept m' active),
    fun m' m'' active active' => inv.alone m' m'' (kept m' active) (kept m'' active'), ?_⟩
  intro m'
  dsimp only [State.become]
  by_cases same : m' = m
  · rw [same, update_self]
    trivial
  · rw [update_of_ne same]
    exact inv.phases m'

omit [DecidableEq M] in
theorem Sound.addTransaction (inv : Sound lib s) (tx : BlockchainTransaction T A) :
    Sound lib { s with bc := ProofOfWork.addTransaction s.bc tx } := by
  refine ⟨⟨inv.chain.nonempty, inv.chain.linked, inv.chain.indexed⟩, inv.flag, inv.alone, ?_⟩
  intro m
  have phase := inv.phases m
  cases current : s.phase m with
  | idle => trivial
  | entered => trivial
  | working newBlock nonce => exact current ▸ phase
  | found newBlock => exact current ▸ phase
  | leaving res => trivial
  | returned res => trivial

theorem Sound.step {e : Event M T A} (inv : Sound lib s) (took : step lib s e = some t) :
    Sound lib t := by
  cases moves_of_step took with
  | addTransaction tx => exact inv.addTransaction tx
  | refuse idle busy => exact inv.refuse _ _
  | enter idle free =>
    have nobody : ∀ m', ¬ (s.phase m').active := by
      intro m' active
      rw [inv.flag m' active] at free
      cases free
    exact Sound.update (fun m' active => absurd active (nobody m'))
      ⟨inv.chain.nonempty, inv.chain.linked, inv.chain.indexed⟩ (fun _ => rfl) trivial
      fun m' _ => sound_of_not_active _ (nobody m')
  | giveUp entered none =>
    exact inv.advance entered trivial inv.chain (fun _ flag => flag) trivial
  | @prepare m miner now prevBlock entered last =>
    refine inv.advance entered trivial
      ⟨inv.chain.nonempty, inv.chain.linked, inv.chain.indexed⟩ (fun _ flag => flag) ?_
    intro x tail
    obtain rfl := some.inj (last.symm.trans tail)
    exact ⟨rfl, rfl⟩
  | @find m newBlock b nonce working valid =>
    have follows : Extends s.bc newBlock := by
      have phase := inv.phases m
      rwa [working] at phase
    obtain ⟨hash, work, prevHash, index, -⟩ := attempt_found valid
    refine inv.advance working trivial inv.chain (fun _ flag => flag) ⟨?_, hash, work⟩
    intro last tail
    rw [prevHash, index]
    exact follows last tail
  | @miss m newBlock nonce working =>
    have follows := inv.phases m
    rw [working] at follows
    exact inv.advance working trivial inv.chain (fun _ flag => flag) follows
  | cancel err working =>
    exact inv.advance working trivial inv.chain (fun _ flag => flag) trivial
  | @append m newBlock hit =>
    have ready := inv.phases m
    rw [hit] at ready
    obtain ⟨follows, hash, work⟩ := ready
    exact inv.advance hit trivial (inv.chain.append follows hash work) (fun _ flag => flag) trivial
  | leave leaving =>
    exact inv.advance leaving trivial ⟨inv.chain.nonempty, inv.chain.linked, inv.chain.indexed⟩
      (fun active => active.elim) trivial

theorem init_sound (M : Type) (chain : ChainSound lib bc) : Sound lib (init M bc) :=
  ⟨chain, fun _ active => active.elim, fun _ _ active => active.elim, fun _ => trivial⟩

theorem newPoWBlockchain_sound (lib : Library T A) (now) (difficulty : Nat) :
    ChainSound lib { newPoWBlockchain lib now with difficulty } := by
  refine ⟨cons_ne_nil _ _, isChain_singleton _, ?_⟩
  intro i b hit
  cases i with
  | zero => exact some.inj hit ▸ rfl
  | succ i => cases hit

/-- In every interleaving of the steps of AddTransaction and MineBlock calls. -/
theorem mining_keeps_chain_valid (lib : Library T A) (now : T) (difficulty : Nat)
    {events : List (Event M T A)} {s : State M T A}
    (run : exec (ProofOfWork.step lib)
      (init M { newPoWBlockchain lib now with difficulty }) events = some s) :
    validateChain lib s.bc = some true ∧
      ∀ (i : Nat) block, s.bc.chain[i]? = some block → block.index = i := by
  have sound := exec_invariant (Sound lib)
    (init_sound M (newPoWBlockchain_sound lib now difficulty))
    (fun _ _ _ held stepped => held.step stepped) run
  exact ⟨validateChain_eq_true.mpr sound.chain.linked, sound.chain.indexed⟩

/-- A concrete library: instants and amounts are numbers, and every digest is one of a mined
block. -/
def exampleLibrary : Library Nat Nat where
  time := toString
  amount := toString
  zeroTime := 0
  sum256 := fun text => 0 :: 0 :: text.toUTF8.data.toList

def minedOnce : List (Event Bool Nat Nat) :=
  [.addTransaction ⟨"tx1", "Alice", "Bob", 100, 0⟩, .enter false, .enter true,
    .prepare false "Miner1" 1, .addTransaction ⟨"tx2", "Bob", "Charlie", 50, 0⟩, .attempt false,
    .append false, .leave false]

theorem mining_keeps_chain_valid_contended :
    ∃ s, exec (ProofOfWork.step exampleLibrary)
        (init Bool { newPoWBlockchain exampleLibrary 0 with difficulty := 4 }) minedOnce = some s ∧
      s.bc.chain.length = 2 ∧ validateChain exampleLibrary s.bc = some true ∧
      ∀ (i : Nat) block, s.bc.chain[i]? = some block → block.index = i := by
  refine exists_exec (fun s => s.bc.chain.length = 2) (by decide +kernel) fun s run length => ?_
  exact ⟨length, mining_keeps_chain_valid exampleLibrary 0 4 run⟩

end

end AsyncPractice.ProofOfWork
