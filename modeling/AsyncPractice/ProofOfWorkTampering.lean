import AsyncPractice.ProofOfWork

/- One block of a valid chain is replaced. -/
namespace AsyncPractice.ProofOfWork

open List
open Runs (exec)

variable {T A : Type} {lib : Library T A}

def PoWBlockchain.replace (bc : PoWBlockchain T A) (i : Nat) (block' : Block T A) :
    PoWBlockchain T A :=
  { bc with chain := bc.chain.set i block' }

section

theorem length_flatMap_hexDigits (data : Bytes) :
    (data.flatMap hexDigits).length = 2 * data.length := by
  induction data with
  | nil => rfl
  | cons byte data ih =>
    rw [flatMap_cons, length_append, ih, length_cons]
    simp only [hexDigits, length_cons, length_nil]
    omega

theorem length_le_utf8ByteSize (chars) : chars.length ≤ (String.ofList chars).utf8ByteSize := by
  induction chars with
  | nil => exact Nat.zero_le _
  | cons char chars ih =>
    have pos := Char.utf8Size_pos char
    rw [String.ofList_cons, String.utf8ByteSize_append, String.utf8ByteSize_singleton, length_cons]
    omega

theorem isValidHash_calculateHash {d} (long : ∀ text, d ≤ 2 * (lib.sum256 text).length)
    (b : Block T A) : isValidHash d (calculateHash lib b) ≠ none := by
  have bytes := length_le_utf8ByteSize ((lib.sum256 (hashInput lib b)).flatMap hexDigits)
  have chars := long (hashInput lib b)
  rw [length_flatMap_hexDigits] at bytes
  rw [isValidHash, calculateHash, hexEncode, if_neg (by omega)]
  exact Option.some_ne_none _

theorem validateFrom_ne_none {d} (long : ∀ text, d ≤ 2 * (lib.sum256 text).length) (prev rest) :
    validateFrom lib d prev rest ≠ none := by
  induction rest generalizing prev with
  | nil => exact Option.some_ne_none _
  | cons cur rest ih =>
    rw [validateFrom]
    split
    · exact Option.some_ne_none _
    next hash =>
      split
      · exact Option.some_ne_none _
      · rw [not_not.mp hash]
        cases work : isValidHash d (calculateHash lib cur) with
        | none => exact absurd work (isValidHash_calculateHash long cur)
        | some valid =>
          cases valid with
          | false => exact Option.some_ne_none _
          | true => exact ih cur

theorem validateChain_eq_false {bc} (long : ∀ text, bc.difficulty ≤ 2 * (lib.sum256 text).length) :
    validateChain lib bc = some false ↔ ¬ bc.chain.IsChain (Links lib bc.difficulty) := by
  rw [← validateChain_eq_true]
  have total : validateChain lib bc ≠ none := by
    unfold validateChain
    cases bc.chain with
    | nil => exact Option.some_ne_none _
    | cons x rest => exact validateFrom_ne_none long x rest
  cases answer : validateChain lib bc with
  | none => exact absurd answer total
  | some valid => cases valid <;> simp

end

section

variable {d : Nat} {prev b block' : Block T A}

theorem calculateHash_injective (injective : Function.Injective lib.sum256)
    (eq : calculateHash lib block' = calculateHash lib b) :
    hashInput lib block' = hashInput lib b :=
  injective (hexEncode_injective eq)

theorem links_replaced_last (linked : Links lib d prev b) :
    Links lib d prev block' ↔ block'.prevHash = b.prevHash ∧
      block'.hash = calculateHash lib block' ∧ isValidHash d block'.hash = some true := by
  constructor
  · intro new
    exact ⟨new.prevHash.trans linked.prevHash.symm, new.hash, new.work⟩
  · rintro ⟨prevHash, hash, work⟩
    exact ⟨hash, prevHash.trans linked.prevHash, work⟩

/-- A block with another one after it must keep its hash, and so what the hash covers. -/
theorem links_replaced_inner (injective : Function.Injective lib.sum256) {t}
    (linked : Links lib d prev b) (linked' : Links lib d b t) :
    (Links lib d prev block' ∧ Links lib d block' t) ↔
      block'.prevHash = b.prevHash ∧ block'.hash = b.hash ∧
        hashInput lib block' = hashInput lib b := by
  constructor
  · rintro ⟨new, replaced'⟩
    have hash : block'.hash = b.hash := replaced'.prevHash.symm.trans linked'.prevHash
    refine ⟨new.prevHash.trans linked.prevHash.symm, hash, ?_⟩
    apply calculateHash_injective injective
    rw [← new.hash, ← linked.hash, hash]
  · rintro ⟨prevHash, hash, input⟩
    refine ⟨⟨?_, prevHash.trans linked.prevHash, hash ▸ linked.work⟩,
      ⟨linked'.hash, linked'.prevHash.trans hash.symm, linked'.work⟩⟩
    rw [hash, linked.hash, calculateHash, calculateHash, input]

theorem isChain_replaced (injective : Function.Injective lib.sum256) {front back}
    (chained : (front ++ prev :: b :: back).IsChain (Links lib d)) :
    (front ++ prev :: block' :: back).IsChain (Links lib d) ↔ block'.prevHash = b.prevHash ∧
        if back ≠ [] then block'.hash = b.hash ∧ hashInput lib block' = hashInput lib b
        else block'.hash = calculateHash lib block' ∧ isValidHash d block'.hash = some true := by
  obtain ⟨pre, linked, after⟩ := isChain_append_cons_cons.mp chained
  rw [isChain_append_cons_cons]
  cases back with
  | nil =>
    rw [links_replaced_last linked, if_neg (not_not.mpr rfl)]
    constructor
    · exact fun new => new.2.1
    · exact fun kept => ⟨pre, kept, isChain_singleton _⟩
  | cons t back =>
    obtain ⟨linked', after⟩ := isChain_cons_cons.mp after
    rw [if_pos (cons_ne_nil _ _), ← links_replaced_inner injective linked linked',
      isChain_cons_cons]
    constructor
    · exact fun new => ⟨new.2.1, new.2.2.1⟩
    · exact fun kept => ⟨pre, kept.1, kept.2, after⟩

end

theorem split_at_block {chain : List (Block T A)} {i : Nat} {b : Block T A} (later : 0 < i)
    (hit : chain[i]? = some b) :
    ∃ front prev back, chain = front ++ prev :: b :: back ∧ front.length + 1 = i := by
  obtain ⟨i, rfl⟩ := Nat.exists_eq_succ_of_ne_zero later.ne'
  obtain ⟨lt, rfl⟩ := List.getElem?_eq_some_iff.mp hit
  refine ⟨chain.take i, chain[i], chain.drop (i + 2), ?_, ?_⟩
  · rw [← drop_eq_getElem_cons lt, ← drop_eq_getElem_cons, take_append_drop]
  · rw [length_take]
    omega

/-- Replacing a block after the genesis of a valid chain is detected exactly when its PrevHash
changes, or it is not the last one and its Hash or what the hash covers changes, or it is the last
one and does not carry a valid hash of its own. -/
theorem tampering_detected_iff (lib : Library T A) (injective : Function.Injective lib.sum256)
    {bc : PoWBlockchain T A} (long : ∀ text, bc.difficulty ≤ 2 * (lib.sum256 text).length)
    (valid : validateChain lib bc = some true) {i : Nat} (later : 0 < i) {block : Block T A}
    (present : bc.chain[i]? = some block) (block' : Block T A) :
    validateChain lib (bc.replace i block') = some false ↔
      block'.prevHash ≠ block.prevHash ∨
        if i + 1 < bc.chain.length
        then block'.hash ≠ block.hash ∨ hashInput lib block' ≠ hashInput lib block
        else block'.hash ≠ calculateHash lib block' ∨
          isValidHash bc.difficulty block'.hash ≠ some true := by
  obtain ⟨front, prev, back, whole, place⟩ := split_at_block later present
  have chained := validateChain_eq_true.mp valid
  have replaced : bc.chain.set i block' = front ++ prev :: block' :: back := by
    rw [whole, ← place, set_append_right _ _ (Nat.le_succ _)]
    simp
  have followed : i + 1 < bc.chain.length ↔ back ≠ [] := by
    rw [whole, ← place, ← length_pos_iff]
    simp only [length_append, length_cons]
    omega
  have detected : validateChain lib (bc.replace i block') = some false ↔
      ¬ (bc.chain.set i block').IsChain (Links lib bc.difficulty) := validateChain_eq_false long
  rw [detected, replaced, isChain_replaced injective (whole ▸ chained), not_and_or]
  by_cases last : back = []
  · rw [if_neg (not_not.mpr last), if_neg (by rw [followed]; exact not_not.mpr last), not_and_or]
  · rw [if_pos last, if_pos (followed.mpr last), not_and_or]

theorem exampleLibrary_injective : Function.Injective exampleLibrary.sum256 := by
  intro text text' eq
  obtain ⟨-, eq⟩ := cons.inj eq
  obtain ⟨-, eq⟩ := cons.inj eq
  exact String.toByteArray_inj.mp (ByteArray.ext (Array.toList_inj.mp eq))

theorem exampleLibrary_long (text) : 4 ≤ 2 * (exampleLibrary.sum256 text).length := by
  simp only [exampleLibrary, length_cons]
  omega

def remined (block : Block Nat Nat) : Block Nat Nat :=
  { block with nonce := 1, hash := calculateHash exampleLibrary { block with nonce := 1 } }

theorem exec_minedOnce :
    ∃ s : State Bool Nat Nat, exec (step exampleLibrary)
        (init Bool (newPoWBlockchain exampleLibrary 0)) minedOnce = some s ∧
      s.bc.difficulty = 4 ∧ validateChain exampleLibrary s.bc = some true ∧
      ∃ b, s.bc.chain[1]? = some b ∧ b.prevHash ≠ "" ∧ b.miner = "Miner1" ∧ b.nonce = 0 ∧
        validateChain exampleLibrary (s.bc.replace 1 { b with miner := "Mallory" }) = some true ∧
        validateChain exampleLibrary (s.bc.replace 1 (remined b)) = some true := by
  have came : (exec (step exampleLibrary) (init Bool (newPoWBlockchain exampleLibrary 0))
      minedOnce).map (fun s => (decide (s.bc.difficulty = 4 ∧
        validateChain exampleLibrary s.bc = some true), s.bc.chain[1]?.map fun b =>
          decide (b.prevHash ≠ "" ∧ b.miner = "Miner1" ∧ b.nonce = 0 ∧
            validateChain exampleLibrary (s.bc.replace 1 { b with miner := "Mallory" }) =
              some true ∧
            validateChain exampleLibrary (s.bc.replace 1 (remined b)) = some true))) =
      some (true, some true) := by
    decide +kernel
  obtain ⟨s, run, facts⟩ := Option.map_eq_some_iff.mp came
  obtain ⟨whole, facts⟩ := Prod.mk.inj facts
  obtain ⟨d, valid⟩ := of_decide_eq_true whole
  obtain ⟨b, hit, facts⟩ := Option.map_eq_some_iff.mp facts
  exact ⟨s, run, d, valid, b, hit, of_decide_eq_true facts⟩

theorem tampering_detected_iff_relinked :
    ∃ s : State Bool Nat Nat, exec (step exampleLibrary)
        (init Bool (newPoWBlockchain exampleLibrary 0)) minedOnce = some s ∧
      ∃ block, s.bc.chain[1]? = some block ∧
        validateChain exampleLibrary (s.bc.replace 1 { block with prevHash := "" }) =
          some false := by
  obtain ⟨s, run, difficulty, valid, block, present, linked, -⟩ := exec_minedOnce
  refine ⟨s, run, block, present, (tampering_detected_iff exampleLibrary exampleLibrary_injective
    ?_ valid Nat.one_pos present _).mpr (Or.inl linked.symm)⟩
  rw [difficulty]
  exact exampleLibrary_long

/-- The mined block gets another miner, or is mined anew. -/
theorem changed_block_undetected :
    Function.Injective exampleLibrary.sum256 ∧
      ∃ s : State Bool Nat Nat, exec (step exampleLibrary)
          (init Bool (newPoWBlockchain exampleLibrary 0)) minedOnce = some s ∧
        validateChain exampleLibrary s.bc = some true ∧
        ∃ block, s.bc.chain[1]? = some block ∧ block.miner = "Miner1" ∧ block.nonce = 0 ∧
          validateChain exampleLibrary (s.bc.replace 1 { block with miner := "Mallory" }) =
            some true ∧
          validateChain exampleLibrary (s.bc.replace 1 (remined block)) = some true := by
  obtain ⟨s, run, -, valid, block, present, -, facts⟩ := exec_minedOnce
  exact ⟨exampleLibrary_injective, s, run, valid, block, present, facts⟩

end AsyncPractice.ProofOfWork
